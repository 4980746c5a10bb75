namespace NamespaceService

inductive Level
  | debug
  | info
  | warn
  | error
deriving DecidableEq, Inhabited

-- The correlation is the name of the innermost unit of work that was running, if there was one.
structure LogLine where
  level : Level
  message : String
  correlation : Option String := none
deriving DecidableEq, Inhabited

namespace LogLine

-- The line belongs to `name`, unless a unit of work further in has claimed it.
def claimedBy (line : LogLine) (name : String) : LogLine :=
  { line with correlation := line.correlation.or (some name) }

-- A message that reports how long something took. No clock is read, so the time stays blank.
def timed (message : String) : String :=
  s!"{message} in _ ms"

-- What the line tells. Times at the end of a message are blank, whoever wrote them.
def text (line : LogLine) : String :=
  match line.message.toList.reverse with
  | 's' :: 'm' :: ' ' :: rest =>
    match rest.takeWhile Char.isDigit, rest.dropWhile Char.isDigit with
    | _ :: _, ' ' :: 'n' :: 'i' :: ' ' :: before => timed (String.ofList before.reverse)
    | _, _ => line.message
  | _ => line.message

end LogLine

end NamespaceService
