import NamespaceService.Proofs.Concurrency.Crew
import NamespaceService.Proofs.Namespace.Acquisition
import NamespaceService.Proofs.Store.Exclusion
import NamespaceService.Proofs.Transaction.Attempt
import NamespaceService.Proofs.Transaction.Validation

namespace NamespaceService

namespace Stage

variable {ε α β : Type} {σ : Timeline} {m : Stage ε α} {f : α → Stage ε β} {c c' : Context}
  {t u : Nat} {b : β}

-- Work that ends well has gone well all the way.
theorem bind_runs_ok (h : Program.Runs σ ((m >>= f) c) t (.ok b, c') u) :
    ∃ a c₁ s, Program.Runs σ (m c) t (.ok a, c₁) s ∧ Program.Runs σ (f a c₁) s (.ok b, c') u := by
  rw [bind_apply] at h
  obtain ⟨⟨r, c₁⟩, s, hm, hf⟩ := Program.runs_bind.mp h
  cases r
  case ok a => exact ⟨a, c₁, s, hm, hf⟩
  case error e => cases hf.1

end Stage

namespace Action

open Stage Context

variable {σ : Timeline} {t u : Nat} {c c' : Context} {r r' : Resolved} {request : LockRequest}
  {requests : List LockRequest} {texts : List String}

-- Only the request for nodes resolves paths, or a chain.
theorem acquireOne_runs_paths (hrequest : request.category ≠ .node)
    (h : Program.Runs σ (acquireOne r request c) t (.ok r', c') u) :
    r'.paths = r.paths ∧ r'.chain = r.chain := by
  cases request
  case nodes => exact absurd rfl hrequest
  all_goals
    obtain ⟨_, _, _, -, hdone⟩ := bind_runs_ok h
    cases hdone.1
    exact ⟨rfl, rfl⟩

theorem acquireAll_runs_paths (hrequests : ∀ request ∈ requests, request.category ≠ .node)
    (h : Program.Runs σ (requests.foldlM acquireOne r c) t (.ok r', c') u) :
    r'.paths = r.paths ∧ r'.chain = r.chain := by
  induction requests generalizing r c t
  case nil =>
    cases h.1
    exact ⟨rfl, rfl⟩
  case cons request requests ih =>
    rw [List.foldlM_cons] at h
    obtain ⟨r₁, c₁, s, hone, hrest⟩ := bind_runs_ok h
    have ⟨hpaths, hchain⟩ := acquireOne_runs_paths (hrequests request List.mem_cons_self) hone
    have ⟨hpaths', hchain'⟩ := ih (fun req hreq => hrequests req (List.mem_cons_of_mem _ hreq)) hrest
    exact ⟨hpaths'.trans hpaths, hchain'.trans hchain⟩

theorem acquirePaths_runs {mode : NodeMode} {children : Bool}
    (h : Program.Runs σ (acquireOne r (.nodes mode (.paths texts children)) c) t (.ok r', c') u) :
    ∃ chains c₁ s, Program.Runs σ (lockPaths mode texts c) t (.ok chains, c₁) s ∧ s ≤ u ∧
      r'.paths = chains ∧ r'.chain = r.chain := by
  obtain ⟨chains, c₁, s, hlock, hrest⟩ := bind_runs_ok h
  cases children
  case false =>
    obtain ⟨heq, rfl⟩ := hrest
    cases heq
    exact ⟨chains, c', s, hlock, le_rfl, rfl, rfl⟩
  case true =>
    obtain ⟨found, _, v, hchildren, heq, rfl⟩ := bind_runs_ok hrest
    cases heq
    exact ⟨chains, c₁, s, hlock, hchildren.le, rfl, rfl⟩

end Action

theorem Category.not_before_node (category : Category) : ¬Ranked.Before category .node := by
  cases category <;> decide

-- Requests are acquired in the order of their categories, nodes first.
theorem RequestSet.toList_of_nodes {requests : RequestSet} {request : LockRequest}
    (h : requests.find? .node = some request) : ∃ rest, requests.toList = request :: rest ∧
      ∀ other ∈ rest, other.category ≠ .node := by
  have hmem := SortedBy.mem_of_find? h
  have hkey := SortedBy.key_of_find? h
  have hsorted := requests.sorted
  cases hlist : requests.toList
  case nil => simp [hlist] at hmem
  case cons first rest =>
    rw [hlist] at hmem hsorted
    have hfirst := (List.pairwise_cons.mp hsorted).1
    obtain rfl | hmem := List.mem_cons.mp hmem
    · exact ⟨rest, rfl, fun other hother heq => (hfirst other hother).ne (hkey.trans heq.symm)⟩
    · exact absurd (hkey ▸ hfirst request hmem) (Category.not_before_node _)

-- At a position on one of the paths, a name is looked up in a directory.
structure Resolved.Asks (resolved : Resolved) (texts : List String) (here : Position)
    (dir : NodeId) (name : String) : Prop where
  onPath : ∃ text ∈ texts, ∃ names, Path.components text = .ok names ∧ here <+: names ∧
    ∃ above, (resolved.chainOf? text).bind (·[here.length - 1]?) = some above ∧ above.id = dir
  last : here.getLast? = some name

namespace Secured

open NamespaceService.Action Context

variable {σ : Timeline} {t₀ u n : Nat} {tx : TxId} {mode : NodeMode} {changes : List Change}
  {parsed : List (String × Position)} {resolved : Resolved} {c : Context} {locked : LockedAt}
  {done : List Position} {p : Position} {m dir : Node} {finder : Finder}

-- An entry that was looked up only once, in a directory that is locked strongly, is found again.
theorem lookup_of_accepts (h : Secured σ t₀ tx mode parsed resolved c u locked done)
    (hok : σ.Accepts n tx changes) (hu : u ≤ n) (hp : p ∈ done) (hne : p ≠ [])
    (hfinder : locked.finder? p = some finder)
    (habove : (Want.ofPaths mode (parsed.map Prod.snd) p.dropLast).Strong)
    (hstrong : (Want.ofPaths mode (parsed.map Prod.snd) p).Strong)
    (honce : ∀ q ∈ done, locked.finder? q = some finder → q = p) :
    (σ.rows n).lookup finder = (locked p).map .node := by
  obtain ⟨dir, name, hdir, -, -, rfl⟩ := LockedAt.finder?_eq_some hne hfinder
  obtain ⟨q, hq, hqp, hq', -⟩ | ⟨τ, hsettled⟩ := h.survey.answered hp _ hfinder
  · exact absurd (honce q hq hq') hqp
  · have hτ : τ ≤ n := hsettled.le.trans hu
    have hrests := h.tx_eq ▸ (hsettled.parent hne hdir).2 habove
    have hlookup := hsettled.lookup
    cases hm : locked p
    case none =>
      rw [hm] at hlookup
      exact hrests.lookup_nodeNamed hok hu hτ hlookup
    case some m =>
      rw [hm] at hlookup
      exact hrests.lookup_nodeNamed_some hok hu hτ hlookup
        (h.survey.present (h.tx_eq.symm ▸ hok) hu hm hstrong)

-- What the walk has looked up is on one of the paths.
theorem asks_of_finder (h : Secured σ t₀ tx mode parsed resolved c u locked done)
    {texts : List String} {dir : NodeId} {name : String}
    (hparsed : ∀ p ∈ parsed, p.1 ∈ texts ∧ Path.components p.1 = .ok p.2) (hp : p ∈ done)
    (hfinder : locked.finder? p = some (.nodeNamed dir name)) : resolved.Asks texts p dir name := by
  have hne : p ≠ [] := fun hnil => by simp [hnil, LockedAt.finder?_nil] at hfinder
  obtain ⟨above, last, hlocked, -, hlast, heq⟩ := LockedAt.finder?_eq_some hne hfinder
  obtain ⟨rfl, rfl⟩ : dir = above.id ∧ name = last := by simpa using heq
  obtain ⟨_, hpositions, hon⟩ := Position.mem_closure_iff.mp (h.done_iff.mp hp)
  obtain ⟨⟨text, names⟩, hmem, rfl⟩ := List.mem_map.mp hpositions
  have ⟨htext, hnames⟩ := hparsed _ hmem
  refine ⟨⟨text, htext, names, hnames, hon, above, ?_, rfl⟩, hlast⟩
  have hlength : p.length ≤ names.length := hon.length_le
  have htake : names.take (p.length - 1) = p.dropLast := by
    obtain ⟨rest, rfl⟩ := hon
    rw [List.take_append_of_le_length (by omega), List.dropLast_eq_take]
  rw [h.chainOf?_eq hmem fun p hp => (hparsed p hp).2, Option.bind_some,
    LockedAt.chainTo_getElem? h.survey.prefixClosed (by omega), htake, hlocked]

end Secured

-- A transaction that has locked paths at their parents, among other things, and has committed.
structure ParentsLocked (σ : Timeline) (texts : List String) where
  requests : RequestSet
  children : Bool
  asked : requests.find? .node = some (.nodes .writeOnParent (.paths texts children))
  tx : TxId
  start : Nat
  resolved : Resolved
  context : Context
  finish : Nat
  runs : Program.Runs σ (Action.acquire requests (.new tx)) start (.ok resolved, context) finish
  changes : List Change
  commit : Nat
  le : finish ≤ commit
  accepted : σ.Accepts commit context.tx changes

namespace ParentsLocked

open NamespaceService.Action Stage Context

variable {σ : Timeline} {texts : List String} {path : String} {names : Position} {name : String}
  {dir : Node}

theorem tx_eq (o : ParentsLocked σ texts) : o.context.tx = o.tx :=
  have hreads : Reads (acquire o.requests) := acquire_reads
  (hreads (Context.new o.tx)).runs o.runs

theorem secured (o : ParentsLocked σ texts) (hpath : path ∈ texts) :
    ∃ parsed c u locked done, texts.mapM parsePath = .ok parsed ∧ u ≤ o.finish ∧
      Secured σ o.start o.tx .writeOnParent parsed o.resolved c u locked done := by
  obtain ⟨_, _, s, ⟨hvalid, rfl⟩, hfold⟩ := bind_runs_ok o.runs
  obtain rfl := congrArg Prod.snd hvalid
  obtain ⟨rest, hlist, hrest⟩ := RequestSet.toList_of_nodes o.asked
  rw [hlist, List.foldlM_cons] at hfold
  obtain ⟨r₁, c₁, v, hone, hothers⟩ := bind_runs_ok hfold
  obtain ⟨chains, c, u, hlock, hu, hpaths, hchain⟩ := acquirePaths_runs hone
  obtain ⟨hpaths', hchain'⟩ := acquireAll_runs_paths hrest hothers
  cases hparsed : texts.mapM parsePath
  case error fault =>
    rw [lockPaths, hparsed] at hlock
    cases hlock.1
  case ok parsed =>
    have hne : parsed ≠ [] := by
      obtain ⟨names, hmem⟩ := (mem_of_mapM_parsePath hparsed).2 path hpath
      exact List.ne_nil_of_mem hmem
    obtain ⟨_, heq, locked, done, hend⟩ := lockPaths_gives hparsed hne _ _ hlock
    cases heq
    refine ⟨parsed, c, u, locked, done, rfl, hu.trans hothers.le, ?_⟩
    exact
      { survey := hend.walked.toSurvey
        done_iff := hend.done_iff
        grows := hend.grows
        paths_eq := (hpaths'.trans hpaths).trans hend.chains_eq
        chain_eq := hchain'.trans hchain }

-- What has been resolved, and the answer to the commit.
abbrev Outcome := Except Fault Resolved × Except CommitRefusal Unit

-- One member locks paths at their parents and commits, the other one only commits its changes.
def race (texts : List String) (changes : List Change) : Fin 2 → Program Outcome
  | 0 => do
    let request := LockRequest.nodes .writeOnParent (.paths texts false)
    let (resolved, context) ← acquire (SortedBy.empty.insert request) (.new 1)
    return (resolved, ← Program.call (.commit context.tx []))
  | 1 => do
    return (.ok .empty, ← Program.call (.commit 2 changes))

def oneDirectory : Rows :=
  .ofList [.node .root, .node ⟨⟨1⟩, .root, "a", .directory, []⟩]

def crew (texts : List String) (changes : List Change) : Crew (Fin 2) Outcome where
  world := { store := .ofRows oneDirectory }
  program := race texts changes

theorem crew_orderly (texts : List String) (changes : List Change) :
    (crew texts changes).Orderly where
  plain
    | 0 => Program.Only.bind (Reads.plain acquire_reads _) fun _ =>
        Program.Only.bind (.call trivial) fun _ => trivial
    | 1 => Program.Only.bind (.call trivial) fun _ => trivial
  coherent := Store.ofRows_coherent oneDirectory

-- What the first member resolved a path to, if its commit was accepted.
def found? (finish : Crew (Fin 2) Outcome) (path : String) : Option (Option Node × Option Node) :=
  match finish.program 0 with
  | .done (.ok resolved, .ok ()) => some (resolved.parent? path, resolved.target? path)
  | _ => none

theorem of_race {texts : List String} {changes : List Change} {schedule : List (Fin 2)}
    {parent target : Option Node}
    (h : found? ((crew texts changes).run schedule) path = some (parent, target)) :
    ∃ o : ParentsLocked (Crew.timeline (crew_orderly texts changes) schedule 0) texts,
      o.resolved.parent? path = parent ∧ o.resolved.target? path = target := by
  rw [found?, ← Crew.after_length] at h
  split at h
  case h_2 => cases h
  case h_1 resolved hdone =>
    cases h
    obtain ⟨u, -, hruns⟩ :=
      Crew.program_runs (h := crew_orderly texts changes) hdone (Nat.zero_le _)
    obtain ⟨⟨r, context⟩, finish, hacquire, commit, answer, hnext, hanswer, hend, -⟩ :=
      Program.runs_bind.mp hruns
    obtain ⟨rfl, rfl⟩ := Prod.mk.inj hend
    exact ⟨⟨_, false, rfl, 1, 0, resolved, context, finish, hacquire, [], commit, hnext.le,
      hanswer⟩, rfl, rfl⟩

def isCommit : Turn → Bool
  | .call (.commit ..) => true
  | _ => false

-- Nothing but the commit of the first member can be its commit.
theorem commit_eq_of_race {texts : List String} {changes : List Change} {schedule : List (Fin 2)}
    (o : ParentsLocked (Crew.timeline (crew_orderly texts changes) schedule 0) texts) {n : Nat}
    (honly : ∀ m < schedule.length, m ≠ n →
      isCommit ((Crew.timeline (crew_orderly texts changes) schedule 0).turn m) = false) :
    o.commit = n := by
  have hturn := o.accepted.1
  by_contra hne
  by_cases hlt : o.commit < schedule.length
  case pos => simpa [hturn, isCommit] using honly o.commit hlt hne
  case neg =>
    have hnone : schedule[o.commit]? = none := List.getElem?_eq_none_iff.mpr (by omega)
    simp [Crew.timeline, hnone] at hturn

-- An entry that was looked up only once is, at the commit, what the path was resolved to.
theorem leaf_kept (o : ParentsLocked σ texts) (hpath : path ∈ texts)
    (hnames : Path.components path = .ok names) (hname : names.getLast? = some name)
    (hparent : o.resolved.parent? path = some dir) (hdir : dir.isDirectory) :
    .node dir ∈ (σ.rows o.commit).toList ∧
    (∀ leaf, o.resolved.target? path = some leaf → .node leaf ∈ (σ.rows o.commit).toList) ∧
    ((∀ here, o.resolved.Asks texts here dir.id name → here = names) →
      (σ.rows o.commit).lookup (.nodeNamed dir.id name) =
        (o.resolved.target? path).map .node) := by
  obtain ⟨parsed, c, u, locked, done, hparsed, hu, h⟩ := o.secured hpath
  have ⟨hcomponents, htexts⟩ := mem_of_mapM_parsePath hparsed
  have hprefix := h.survey.prefixClosed
  have hchain {text : String} {names : Position} (hmem : (text, names) ∈ parsed) :
      o.resolved.chainOf? text = some (locked.chainTo names) :=
    h.chainOf?_eq hmem fun p hp => (hcomponents p hp).2
  have hok : σ.Accepts o.commit o.tx o.changes := o.tx_eq ▸ o.accepted
  have hu : u ≤ o.commit := hu.trans o.le
  have hne : names ≠ [] := fun hnil => by simp [hnil] at hname
  have hmem : (path, names) ∈ parsed := by
    obtain ⟨names', hmem⟩ := htexts path hpath
    cases hnames.symm.trans (hcomponents _ hmem).2
    exact hmem
  have hon : names ∈ parsed.map Prod.snd := List.mem_map.mpr ⟨_, hmem, rfl⟩
  have hleaf : (Want.ofPaths .writeOnParent (parsed.map Prod.snd) names).Strong :=
    Want.ofPaths_leaf_strong hon (by decide)
  have habove : (Want.ofPaths .writeOnParent (parsed.map Prod.snd) names.dropLast).Strong :=
    have ⟨kind, hkind, hle⟩ := Want.ofPaths_parent_write hon hne
    .inr ⟨kind, hkind, LockKind.le_trans (by decide) hle⟩
  have htarget := Resolved.target?_eq hprefix hnames (hchain hmem)
  rw [Resolved.parent?_eq hprefix hnames (hchain hmem) hne] at hparent
  have hok' := h.tx_eq.symm ▸ hok
  refine ⟨h.survey.present hok' hu hparent habove, fun leaf htarget' => ?_, fun honce => ?_⟩
  · exact h.survey.present hok' hu (htarget.symm.trans htarget') hleaf
  · have hfinder : locked.finder? names = some (.nodeNamed dir.id name) := by
      simp [LockedAt.finder?, hname, hparent, hdir]
    have hdone : names ∈ done :=
      h.done_iff.mpr (Position.mem_closure_iff.mpr ⟨names, hon, List.prefix_refl _⟩)
    rw [htarget]
    refine h.lookup_of_accepts hok hu hdone hne hfinder habove hleaf fun q hq hq' => honce q ?_
    exact h.asks_of_finder hcomponents hq hq'

-- Meanwhile, an entry is added to another directory.
theorem leaf_kept_free : ∃ (σ : Timeline) (o : ParentsLocked σ ["/a/x"]) (dir : Node),
    o.resolved.parent? "/a/x" = some dir ∧ .node dir ∈ (σ.rows o.commit).toList ∧
    (σ.rows o.commit).lookup (.nodeNamed dir.id "x") = none := by
  let added : List Change := [.upsert (.node ⟨⟨2⟩, .root, "c", .file, []⟩)]
  let schedule : List (Fin 2) := List.replicate 5 0 ++ [1] ++ List.replicate 4 0
  have hfound : found? ((crew ["/a/x"] added).run schedule) "/a/x" =
      some (some ⟨⟨1⟩, .root, "a", .directory, []⟩, none) := by
    decide +kernel
  have hnames : Path.components "/a/x" = .ok ["a", "x"] := by decide +kernel
  obtain ⟨o, hparent, htarget⟩ := of_race hfound
  have ⟨hdir, _, hlookup⟩ := o.leaf_kept List.mem_cons_self hnames rfl hparent rfl
  refine ⟨_, o, _, hparent, hdir, (hlookup ?_).trans (congrArg _ htarget)⟩
  rintro here ⟨⟨text, htext, names, hnames', hon, -⟩, hlast⟩
  cases List.mem_singleton.mp htext
  cases hnames.symm.trans hnames'
  obtain rfl | ⟨_, rfl, rfl | rfl⟩ : here = [] ∨ ∃ t, here = "a" :: t ∧ (t = [] ∨ t = ["x"]) := by
    simpa [List.prefix_cons_iff] using hon
  all_goals simp_all

-- The directory is renamed, and gets an entry, after the entry was looked up under the old name.
def moved : List Change :=
  [.upsert (.node ⟨⟨2⟩, ⟨1⟩, "x", .file, []⟩), .upsert (.node ⟨⟨1⟩, .root, "b", .directory, []⟩)]

def movedSchedule : List (Fin 2) :=
  List.replicate 6 0 ++ [1] ++ List.replicate 5 0

-- The commit is accepted, although the entry that was resolved as missing is there.
theorem stale_leaf_accepted : ∃ (σ : Timeline) (o : ParentsLocked σ ["/a/x/y", "/b/x"]) (dir : Node),
    o.resolved.parent? "/b/x" = some dir ∧ dir.isDirectory ∧ o.resolved.target? "/b/x" = none ∧
    (σ.rows o.commit).lookup (.nodeNamed dir.id "x") =
      some (.node ⟨⟨2⟩, dir.id, "x", .file, []⟩) := by
  have hfound : found? ((crew ["/a/x/y", "/b/x"] moved).run movedSchedule) "/b/x" =
      some (some ⟨⟨1⟩, .root, "b", .directory, []⟩, none) := by
    decide +kernel
  obtain ⟨o, hparent, htarget⟩ := of_race hfound
  have hcommit : o.commit = 11 := commit_eq_of_race o (by decide +kernel)
  refine ⟨_, o, _, hparent, rfl, htarget, ?_⟩
  rw [hcommit]
  decide +kernel

end ParentsLocked

end NamespaceService
