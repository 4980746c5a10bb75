import NamespaceService.Proofs.Transaction.Positions
import NamespaceService.Proofs.Transaction.Wants

namespace NamespaceService

-- Only nodes answer the lookup.
def Finder.FindsNodes (finder : Finder) : Prop :=
  ∀ row, finder.selects row → ∃ n : Node, row = .node n

namespace LockedAt

variable {locked locked' : LockedAt} {here p : Position} {n : Node} {finder : Finder}

theorem set_self : locked.set here n here = some n :=
  if_pos rfl

theorem set_of_ne (h : p ≠ here) : locked.set here n p = locked p :=
  if_neg h

theorem finder?_nil : locked.finder? [] = some (.node .root) :=
  rfl

theorem finder?_congr (h : p ≠ [] → locked' p.dropLast = locked p.dropLast) :
    locked'.finder? p = locked.finder? p := by
  rw [LockedAt.finder?, LockedAt.finder?]
  cases hp : p.getLast?
  case none => rfl
  case some name =>
    have hne : p ≠ [] := fun hnil => by simp [hnil] at hp
    simp only [h hne]

-- Below the root, a position is looked up under the directory that is locked above it.
theorem finder?_eq_some (hne : p ≠ []) (h : locked.finder? p = some finder) :
    ∃ parent name, locked p.dropLast = some parent ∧ parent.isDirectory ∧
      p.getLast? = some name ∧ finder = .nodeNamed parent.id name := by
  rw [LockedAt.finder?] at h
  cases hp : p.getLast?
  case none => exact absurd (List.getLast?_eq_none_iff.mp hp) hne
  case some name =>
    rw [hp] at h
    cases hparent : locked p.dropLast
    case none => simp [hparent] at h
    case some parent =>
      have ⟨hdir, hfinder⟩ : parent.isDirectory ∧ .nodeNamed parent.id name = finder := by
        simpa [hparent] using h
      exact ⟨parent, name, rfl, hdir, rfl, hfinder.symm⟩

theorem finder?_findsNodes (h : locked.finder? p = some finder) : finder.FindsNodes := by
  intro row hsel
  by_cases hne : p = []
  case pos =>
    subst hne
    cases h
    have ⟨n, hn, _⟩ := Row.eq_node_of_key (Finder.key_of_selects rfl hsel)
    exact ⟨n, hn⟩
  case neg =>
    obtain ⟨parent, name, -, -, -, rfl⟩ := finder?_eq_some hne h
    have ⟨n, hn, _⟩ := Finder.selects_nodeNamed hsel
    exact ⟨n, hn⟩

-- The root is looked up by its id, and everything else by a name.
theorem finder?_root_or_named (h : locked.finder? p = some finder) :
    finder = .node .root ∨ finder.key? = none := by
  by_cases hne : p = []
  case pos =>
    subst hne
    cases h
    exact .inl rfl
  case neg =>
    obtain ⟨parent, name, -, -, -, rfl⟩ := finder?_eq_some hne h
    exact .inr rfl

theorem key?_of_finder? (hne : p ≠ []) (h : locked.finder? p = some finder) :
    finder.key? = none := by
  obtain ⟨parent, name, -, -, -, rfl⟩ := finder?_eq_some hne h
  rfl

end LockedAt

namespace Action

open Context Stage

variable {σ : Timeline} {t₀ t u : Nat} {c c' : Context} {want : Want} {wants : Position → Want}
  {mode : NodeMode} {paths done rest : List Position} {locked : LockedAt} {here p : Position}
  {n : Node}

-- The node that the walk has locked at a position.
structure Placed (σ : Timeline) (t₀ u : Nat) (c : Context) (want : Want) (locked : LockedAt)
    (p : Position) (n : Node) : Prop where
  seen : ∃ τ, t₀ ≤ τ ∧ τ ≤ u ∧ .node n ∈ (σ.rows τ).toList ∧
    (want.Strong → σ.Rests c.tx u (.node n.id) τ)
  holds {kind : LockKind} : want.Covers kind → c.locks.holds (.node n.id) kind
  known : ∃ row, c.rows (.node n.id) = some row
  place : ∃ finder, locked.finder? p = some finder ∧ Fits σ t₀ u finder (.node n.id)

-- The walk has looked the position up in vain.
def Missed (locked : LockedAt) (p : Position) : Prop :=
  locked p = none ∧ ∃ finder, locked.finder? p = some finder

-- Nothing was found at a position whose parent is a locked directory: it was not there at some
-- moment, or an earlier miss of the walk has been taken for an answer.
def Missing (σ : Timeline) (t₀ u : Nat) (c : Context) (wants : Position → Want)
    (locked : LockedAt) (done : List Position) (p : Position) : Prop :=
  ∀ finder, locked.finder? p = some finder →
    (∃ q ∈ done, q ≠ p ∧ Missed locked q) ∨
    ∃ τ, t₀ ≤ τ ∧ τ ≤ u ∧ (σ.rows τ).lookup finder = none ∧
      ∀ parent, p ≠ [] → locked p.dropLast = some parent →
        (∃ τ' ≤ τ, t₀ ≤ τ' ∧ .node parent ∈ (σ.rows τ').toList) ∧
        ((wants p.dropLast).Strong → σ.Rests c.tx u (.node parent.id) τ)

-- The store has answered the lookup of a position, after the directory above it had been seen.
structure Settled (σ : Timeline) (t₀ u : Nat) (c : Context) (wants : Position → Want)
    (locked : LockedAt) (p : Position) (finder : Finder) (τ : Nat) : Prop where
  ge : t₀ ≤ τ
  le : τ ≤ u
  lookup : (σ.rows τ).lookup finder = (locked p).map .node
  parent {dir : Node} : p ≠ [] → locked p.dropLast = some dir →
    (∃ τ' ≤ τ, t₀ ≤ τ' ∧ .node dir ∈ (σ.rows τ').toList) ∧
    ((wants p.dropLast).Strong → σ.Rests c.tx u (.node dir.id) τ)
  leaf {n : Node} : locked p = some n → (wants p).Strong → σ.Rests c.tx u (.node n.id) τ

-- What the walk knows of a position is the store's answer, unless it has made the same lookup at
-- another position, and that answer has been taken again.
def Answered (σ : Timeline) (t₀ u : Nat) (c : Context) (wants : Position → Want)
    (locked : LockedAt) (done : List Position) (p : Position) : Prop :=
  ∀ finder, locked.finder? p = some finder →
    (∃ q ∈ done, q ≠ p ∧ locked.finder? q = some finder ∧ (locked p = none → locked q = none)) ∨
    ∃ τ, Settled σ t₀ u c wants locked p finder τ

-- What is known of the positions that a walk has come to.
structure Survey (σ : Timeline) (t₀ t : Nat) (c : Context) (wants : Position → Want)
    (locked : LockedAt) (done : List Position) : Prop where
  tracks : Tracks σ t₀ t t c
  closed {p : Position} : p ∈ done → p ≠ [] → p.dropLast ∈ done
  done_of {p : Position} {n : Node} : locked p = some n → p ∈ done
  placed {p : Position} {n : Node} : locked p = some n → Placed σ t₀ t c (wants p) locked p n
  answered {p : Position} : p ∈ done → Answered σ t₀ t c wants locked done p

theorem Survey.missing {c : Context} {wants : Position → Want}
    (h : Survey σ t₀ t c wants locked done) (hp : p ∈ done) (hnone : locked p = none) :
    Missing σ t₀ t c wants locked done p := by
  intro finder hf
  obtain ⟨q, hq, hne, hfinder, hmissed⟩ | ⟨τ, hsettled⟩ := h.answered hp finder hf
  · exact .inl ⟨q, hq, hne, hmissed hnone, finder, hfinder⟩
  · have hlookup := hsettled.lookup
    rw [hnone] at hlookup
    exact .inr ⟨τ, hsettled.ge, hsettled.le, hlookup, fun _ hne hdir => hsettled.parent hne hdir⟩

-- A context that knows nothing but the nodes that are locked.
structure NodesOnly (locked : LockedAt) (c : Context) : Prop where
  opened : c.sealed = false
  nodes {key : Key} {row : Row} : c.rows key = some row →
    ∃ p n, locked p = some n ∧ key = .node n.id
  lists (finder : Finder) : c.lists finder = none

-- What the walk may have locked at a position: the node there, or a root that is not there.
def Allowed (wants : Position → Want) (locked : LockedAt) (p : Position) (key : Key)
    (kind : LockKind) : Prop :=
  (wants p).Allows kind ∧ ((∃ n, locked p = some n ∧ key = .node n.id) ∨ p = [] ∧ locked p = none)

-- What holds after every position of a walk.
structure Walked (σ : Timeline) (t₀ t : Nat) (c : Context) (wants : Position → Want)
    (locked : LockedAt) (done : List Position) : Prop
    extends Survey σ t₀ t c wants locked done, NodesOnly locked c where
  held {key : Key} {kind : LockKind} : c.locks.holds key kind →
    ∃ p ∈ done, Allowed wants locked p key kind
  sources {finder : Finder} {key? : Option Key} : c.singles finder = some key? →
    key? = none ∨ finder.key? = none →
    ∃ q ∈ done, locked.finder? q = some finder ∧ (key? = none → locked q = none)

-- What a lookup does to the context.
structure Advances (σ : Timeline) (t₀ t u : Nat) (c c' : Context) : Prop where
  le : t ≤ u
  tracks : Tracks σ t₀ u u c'
  grows : c.Grows c'
  known {key : Key} {row : Row} : c.rows key = some row → ∃ row', c'.rows key = some row'

theorem Advances.wait (h : Tracks σ t₀ t t c) (hu : t ≤ u) : Advances σ t₀ t u c c where
  le := hu
  tracks := h.mono hu hu
  grows := .refl c
  known hk := ⟨_, hk⟩

theorem Advances.mono {t' u' : Nat} (h : Advances σ t₀ t u c c') (ht : t' ≤ t) (hu : u ≤ u') :
    Advances σ t₀ t' u' c c' where
  le := ht.trans (h.le.trans hu)
  tracks := h.tracks.mono hu hu
  grows := h.grows
  known := h.known

theorem Placed.advance (h : Placed σ t₀ t c want locked p n) (ha : Advances σ t₀ t u c c')
    {locked' : LockedAt} (hfinder : locked'.finder? p = locked.finder? p) :
    Placed σ t₀ u c' want locked' p n where
  seen :=
    have ⟨τ, h₀, hτ, hm, hr⟩ := h.seen
    ⟨τ, h₀, hτ.trans ha.le, hm, fun hs => ha.grows.tx ▸ (hr hs).mono ha.le⟩
  holds hc := ha.grows.holds (h.holds hc)
  known :=
    have ⟨_, hk⟩ := h.known
    ha.known hk
  place :=
    have ⟨finder, hf, hfits⟩ := h.place
    ⟨finder, hfinder.trans hf, hfits.mono ha.le⟩

theorem Settled.mono {finder : Finder} {τ : Nat} (h : Settled σ t₀ t c wants locked p finder τ)
    (htx : c'.tx = c.tx) (hu : t ≤ u) : Settled σ t₀ u c' wants locked p finder τ where
  ge := h.ge
  le := h.le.trans hu
  lookup := h.lookup
  parent hne hdir :=
    (h.parent hne hdir).imp_right fun hrests hstrong => htx ▸ (hrests hstrong).mono hu
  leaf hn hstrong := htx ▸ (h.leaf hn hstrong).mono hu

-- What is known of a position stays known as long as nothing changes at the positions so far.
theorem Answered.advance (h : Answered σ t₀ t c wants locked done p) (hp : p ∈ done)
    (hclosed : ∀ {p}, p ∈ done → p ≠ [] → p.dropLast ∈ done) (ha : Advances σ t₀ t u c c')
    {locked' : LockedAt} {done' : List Position} (hsame : ∀ q ∈ done, locked' q = locked q)
    (hdone : ∀ q ∈ done, q ∈ done') : Answered σ t₀ u c' wants locked' done' p := by
  have hfinder : ∀ q ∈ done, locked'.finder? q = locked.finder? q := fun q hq =>
    LockedAt.finder?_congr fun hne => hsame _ (hclosed hq hne)
  intro finder hf
  obtain ⟨q, hq, hne, hq', hmissed⟩ | ⟨τ, hsettled⟩ := h finder (hfinder p hp ▸ hf)
  · refine .inl ⟨q, hdone q hq, hne, (hfinder q hq).trans hq', fun hnone => ?_⟩
    rw [hsame p hp] at hnone
    exact (hsame q hq).trans (hmissed hnone)
  · have hsettled := hsettled.mono ha.grows.tx ha.le
    refine .inr ⟨τ, hsettled.ge, hsettled.le, ?_, fun hne hdir => ?_, fun hn => ?_⟩
    · rw [hsame p hp]
      exact hsettled.lookup
    · rw [hsame _ (hclosed hp hne)] at hdir
      exact hsettled.parent hne hdir
    · rw [hsame p hp] at hn
      exact hsettled.leaf hn

namespace Walked

theorem none_of_not_done (h : Walked σ t₀ t c wants locked done) (hhere : here ∉ done) :
    locked here = none := by
  by_contra hne
  have ⟨n, hn⟩ := Option.ne_none_iff_exists'.mp hne
  exact hhere (h.done_of hn)

theorem closed_cons (h : Walked σ t₀ t c wants locked done)
    (habove : here ≠ [] → here.dropLast ∈ done) (hp : p ∈ here :: done) (hne : p ≠ []) :
    p.dropLast ∈ here :: done := by
  obtain rfl | hp := List.mem_cons.mp hp
  · exact List.mem_cons_of_mem _ (habove hne)
  · exact List.mem_cons_of_mem _ (h.closed hp hne)

-- The walk goes on, with or without one more node. Of the answers and locks in the context, the new
-- ones have to do with the position it has come to.
theorem extend (h : Walked σ t₀ t c wants locked done) (habove : here ≠ [] → here.dropLast ∈ done)
    (ha : Advances σ t₀ t u c c') {locked' : LockedAt} (hnodes : NodesOnly locked' c')
    (hsame : ∀ q ∈ done, locked' q = locked q)
    (hplaced : ∀ p n, locked' p = some n →
      p ∈ done ∨ p = here ∧ Placed σ t₀ u c' (wants p) locked' p n)
    (hsources : ∀ finder key?, c'.singles finder = some key? → key? = none ∨ finder.key? = none →
      c.singles finder = some key? ∨
        locked.finder? here = some finder ∧ (key? = none → locked' here = none))
    (hheld : ∀ key kind, c'.locks.holds key kind →
      c.locks.holds key kind ∨ Allowed wants locked' here key kind)
    (hanswered : Answered σ t₀ u c' wants locked' (here :: done) here) :
    Walked σ t₀ u c' wants locked' (here :: done) := by
  have hfinder : ∀ q ∈ done, locked'.finder? q = locked.finder? q := fun q hq =>
    LockedAt.finder?_congr fun hne => hsame _ (h.closed hq hne)
  refine
    { toNodesOnly := hnodes
      tracks := ha.tracks
      held := fun {key kind} hk => ?held
      sources := fun {finder key?} hs hsort => ?sources
      closed := h.closed_cons habove
      done_of := fun {p n} hp => ?done_of
      placed := fun {p n} hp => ?placed
      answered := fun {p} hp => ?answered }
  case held =>
    obtain hk | hallowed := hheld key kind hk
    · have ⟨p, hp, hallows, hkey⟩ := h.held hk
      exact ⟨p, List.mem_cons_of_mem _ hp, hallows, hsame p hp ▸ hkey⟩
    · exact ⟨here, List.mem_cons_self, hallowed⟩
  case sources =>
    obtain hs | ⟨hhere, hnone⟩ := hsources finder key? hs hsort
    · have ⟨q, hq, hf, hnone⟩ := h.sources hs hsort
      exact ⟨q, List.mem_cons_of_mem _ hq, (hfinder q hq).trans hf,
        fun hkey => (hsame q hq).trans (hnone hkey)⟩
    · have hcongr : locked'.finder? here = locked.finder? here :=
        LockedAt.finder?_congr fun hne => hsame _ (habove hne)
      exact ⟨here, List.mem_cons_self, hcongr.trans hhere, hnone⟩
  case done_of =>
    obtain hp | ⟨rfl, -⟩ := hplaced p n hp
    · exact List.mem_cons_of_mem _ hp
    · exact List.mem_cons_self
  case placed =>
    obtain hdone | ⟨-, hplaced⟩ := hplaced p n hp
    · exact (h.placed ((hsame p hdone).symm.trans hp)).advance ha (hfinder p hdone)
    · exact hplaced
  case answered =>
    obtain rfl | hp := List.mem_cons.mp hp
    · exact hanswered
    · exact (h.answered hp).advance hp h.closed ha hsame fun q hq => List.mem_cons_of_mem _ hq

-- The walk goes on without having locked a node.
theorem skip (h : Walked σ t₀ t c wants locked done) (hhere : here ∉ done)
    (habove : here ≠ [] → here.dropLast ∈ done) (ha : Advances σ t₀ t u c c')
    (hnodes : NodesOnly locked c') (hsources : ∀ finder key?, c'.singles finder = some key? →
      c.singles finder = some key? ∨ locked.finder? here = some finder)
    (hheld : ∀ key kind, c'.locks.holds key kind →
      c.locks.holds key kind ∨ Allowed wants locked here key kind)
    (hanswered : Answered σ t₀ u c' wants locked (here :: done) here) :
    Walked σ t₀ u c' wants locked (here :: done) :=
  h.extend habove ha hnodes (fun _ _ => rfl) (fun _ _ hp => .inl (h.done_of hp))
    (fun finder key? hs _ => (hsources finder key? hs).imp_right fun hf =>
      ⟨hf, fun _ => h.none_of_not_done hhere⟩) hheld hanswered

-- The walk goes on with one more node.
theorem set (h : Walked σ t₀ t c wants locked done) (hhere : here ∉ done)
    (habove : here ≠ [] → here.dropLast ∈ done) (ha : Advances σ t₀ t u c c')
    (hnodes : NodesOnly (locked.set here n) c')
    (hsources : ∀ finder key?, c'.singles finder = some key? → key? = none ∨ finder.key? = none →
      c.singles finder = some key? ∨ locked.finder? here = some finder ∧ key? ≠ none)
    (hplaced : Placed σ t₀ u c' (wants here) locked here n)
    (hheld : ∀ key kind, c'.locks.holds key kind →
      c.locks.holds key kind ∨ Allowed wants (locked.set here n) here key kind)
    (hanswered : Answered σ t₀ u c' wants (locked.set here n) (here :: done) here) :
    Walked σ t₀ u c' wants (locked.set here n) (here :: done) := by
  have hsame : ∀ q ∈ done, locked.set here n q = locked q := fun q hq =>
    LockedAt.set_of_ne fun heq => hhere (heq ▸ hq)
  have hfinder : (locked.set here n).finder? here = locked.finder? here :=
    LockedAt.finder?_congr fun hne => hsame _ (habove hne)
  refine h.extend habove ha hnodes hsame (fun p m hp => ?placed) (fun finder key? hs hsort => ?sources)
    hheld hanswered
  case placed =>
    by_cases heq : p = here
    case pos =>
      subst heq
      rw [LockedAt.set_self] at hp
      cases hp
      have ⟨finder, hf, hfits⟩ := hplaced.place
      exact .inr ⟨rfl, { hplaced with place := ⟨finder, hfinder.trans hf, hfits⟩ }⟩
    case neg =>
      rw [LockedAt.set_of_ne heq] at hp
      exact .inl (h.done_of hp)
  case sources =>
    exact (hsources finder key? hs hsort).imp_right fun ⟨hf, hkey⟩ =>
      ⟨hf, fun hnone => absurd hnone hkey⟩

end Walked

theorem Survey.advance (h : Survey σ t₀ t c wants locked done) (ha : Advances σ t₀ t u c c') :
    Survey σ t₀ u c' wants locked done where
  tracks := ha.tracks
  closed := h.closed
  done_of := h.done_of
  placed hp := (h.placed hp).advance ha rfl
  answered hp := (h.answered hp).advance hp h.closed ha (fun _ _ => rfl) fun _ hq => hq

theorem Walked.wait (h : Walked σ t₀ t c wants locked done) (hu : t ≤ u) :
    Walked σ t₀ u c wants locked done :=
  { h with toSurvey := h.toSurvey.advance (.wait h.tracks hu) }

-- A probe that gives no node tells that there was none.
theorem missed_of_probe (h : Tracks σ t₀ t t c) {finder : Finder} (hnodes : finder.FindsNodes)
    {found : Option Row} (hfound : c.knownSingle? finder = some found ∨
      ∃ n, t ≤ n ∧ n < u ∧ found = (σ.rows n).lookup finder)
    (hnone : found.bind Row.node? = none) : c.singles finder = some none ∨
      ∃ n, t ≤ n ∧ n ≤ u ∧ (σ.rows n).lookup finder = none := by
  obtain hknown | ⟨n, hn, hu, rfl⟩ := hfound
  · obtain ⟨key, hkey, hrow⟩ := Option.map_eq_some_iff.mp hknown
    cases key
    case none => exact .inl hkey
    case some key =>
      obtain ⟨⟨row, hknown⟩, old, -, rfl, hsel⟩ := h.single hkey
      obtain ⟨n, rfl⟩ := hnodes old hsel
      obtain ⟨m, rfl, -⟩ := Row.eq_node_of_key (h.row hknown).1
      cases hrow.symm.trans hknown
      cases hnone
  · refine .inr ⟨n, hn, hu.le, ?_⟩
    cases hrow : (σ.rows n).lookup finder
    case none => rfl
    case some row =>
      obtain ⟨m, rfl⟩ := hnodes row (Rows.mem_of_lookup hrow).2
      rw [hrow] at hnone
      cases hnone

theorem settleKind_gives (h : Tracks σ t₀ t t c) (ho : c.sealed = false) {finder : Finder}
    (hnodes : finder.FindsNodes) {level : Nat} :
    Gives σ (settleKind mode want level finder) c t fun kind c' u => c' = c ∧
      (kind = none → want.typedLeaf = false ∧ want.kind = none ∨ c.singles finder = some none ∨
        ∃ n, t ≤ n ∧ n ≤ u ∧ (σ.rows n).lookup finder = none) ∧
      ∀ k, kind = some k → (∀ weaker, want.Covers weaker → weaker ≤ k) ∧
        (want.typedLeaf → mode = .writeOnParent → .read ≤ k) ∧ want.Allows k := by
  rw [settleKind]
  split
  case isTrue htyped =>
    refine (probe_gives ho).bind fun found c' s hs hfound => ?_
    have hsame : c' = c := hfound.elim And.right fun hfound => hfound.2.2
    split
    case h_1 hnone =>
      have hmissed := missed_of_probe h hnodes (hfound.imp And.left fun hfound => hfound.2.1) hnone
      exact .pure ⟨hsame, fun _ => .inr hmissed, nofun⟩
    case h_2 leaf _ =>
      refine .pure ⟨hsame, fun hk => ?_, fun k hk => ?_⟩
      · have ⟨k, hk', _⟩ := want.covers_orKind (mode.kindAt level (level + 1) leaf.isDirectory)
        cases hk.symm.trans hk'
      · obtain ⟨hle, hcovers⟩ := Want.le_of_orKind hk
        refine ⟨hcovers, fun _ hmode => LockKind.le_trans ?_ hle, .inl htyped.1⟩
        rw [Want.kindAt_leaf, hmode]
        cases leaf.isDirectory <;> split <;> decide
  case isFalse htyped =>
    refine .pure ⟨rfl, fun hk => .inl ⟨?_, hk⟩, fun k hk =>
      ⟨fun weaker hcovers => ?_, fun ht _ => ?_, .inr ⟨k, hk, LockKind.le_refl k⟩⟩⟩
    · by_contra ht
      exact htyped ⟨by simpa using ht, by simp [hk]⟩
    · have ⟨held, hheld, hle⟩ := hcovers
      cases hk.symm.trans hheld
      exact hle
    · have hwrite : want.kind = some .write := by
        by_contra hne
        exact htyped ⟨ht, hne⟩
      cases hk.symm.trans hwrite
      decide

theorem LockFound.advances {kind : LockKind} {finder : Finder} {found : Option Row}
    (h : LockFound σ t₀ t c kind finder found c' u) (hu : t ≤ u) : Advances σ t₀ t u c c' where
  le := hu
  tracks := h.tracks
  grows := h.grows
  known {key row} hk := by
    obtain heq | ⟨row', hfound, rfl⟩ : c'.rows key = c.rows key ∨ _ := h.rows
    · exact ⟨row, heq.trans hk⟩
    · exact ⟨row', (h.locked hfound).known⟩

theorem LockFound.nodesOnly {kind : LockKind} {finder : Finder} {found : Option Node}
    (h : LockFound σ t₀ t c kind finder (found.map .node) c' u) (hc : NodesOnly locked c)
    {locked' : LockedAt} (hsame : ∀ p n, locked p = some n → locked' p = some n)
    (hfound : ∀ n, found = some n → ∃ p, locked' p = some n) : NodesOnly locked' c' where
  opened := h.grows.sealed.trans hc.opened
  lists f := h.lists ▸ hc.lists f
  nodes {key row} hk := by
    obtain heq | ⟨row', hrow', rfl⟩ : c'.rows key = c.rows key ∨ _ := h.rows
    · have ⟨p, n, hn, hkey⟩ := hc.nodes (heq.symm.trans hk)
      exact ⟨p, n, hsame p n hn, hkey⟩
    · obtain ⟨n, hn, rfl⟩ := Option.map_eq_some_iff.mp hrow'
      have ⟨p, hp⟩ := hfound n hn
      exact ⟨p, n, hp, rfl⟩

-- A lookup of a node under a lock gives the node, or tells that there was none.
theorem lockNode_found {kind : LockKind} {finder : Finder} (h : Tracks σ t₀ t t c)
    (ho : c.sealed = false) (hfresh : ∀ key, finder.key? = some key → c.rows key = none)
    (hnodes : finder.FindsNodes) :
    Gives σ (lockNode kind finder) c t fun node c' u =>
      LockFound σ t₀ t c kind finder (node.map .node) c' u := by
  refine (lockFind_found h ho hfresh).bind fun found c' u hu hfound => .pure ?_
  cases found
  case none => exact hfound
  case some row =>
    obtain ⟨old, -, hkey, hsel⟩ := (hfound.locked rfl).fits
    obtain ⟨n, rfl⟩ := hnodes old hsel
    obtain ⟨m, rfl, -⟩ := Row.eq_node_of_key hkey.symm
    exact hfound

theorem noteDeadEnd_gives {Q : Unit → Context → Nat → Prop} (h : ∀ u, t ≤ u → Q () c u) :
    Gives σ (noteDeadEnd here rest n) c t Q := by
  rw [noteDeadEnd]
  split
  case isTrue =>
    split
    case h_1 => exact log_gives h
    case h_2 => exact .pure (h t le_rfl)
  case isFalse => exact .pure (h t le_rfl)

-- The store has answered the lookup of the position.
theorem Walked.answered_of_lookup (h : Walked σ t₀ t c wants locked done) {locked' : LockedAt}
    {m : Nat} {finder : Finder} (hfinder : locked'.finder? here = some finder)
    (habove : here ≠ [] → locked' here.dropLast = locked here.dropLast) (hm : t ≤ m) (hu : m ≤ u)
    (hlookup : (σ.rows m).lookup finder = (locked' here).map .node)
    (hleaf : ∀ n, locked' here = some n → (wants here).Strong → σ.Rests c'.tx u (.node n.id) m)
    (ha : Advances σ t₀ t u c c') : Answered σ t₀ u c' wants locked' (here :: done) here := by
  intro finder' hf
  cases hfinder.symm.trans hf
  refine .inr ⟨m, h.tracks.le.trans hm, hu, hlookup, fun hne hdir => ?_, fun hn => hleaf _ hn⟩
  rw [habove hne] at hdir
  have ⟨τ, h₀, hτ, hseen, hr⟩ := (h.placed hdir).seen
  refine ⟨⟨τ, hτ.trans hm, h₀, hseen⟩, fun hstrong => ?_⟩
  exact ha.grows.tx ▸ ((hr hstrong).mono ha.le).after (hτ.trans hm)

-- The same lookup has been made before.
theorem Walked.answered_of_known (h : Walked σ t₀ t c wants locked done) (hhere : here ∉ done)
    {locked' : LockedAt} {finder : Finder} {key? : Option Key}
    (hfinder : locked'.finder? here = some finder) (hsame : ∀ q ∈ done, locked' q = locked q)
    (hknown : c.singles finder = some key?) (hsort : key? = none ∨ finder.key? = none)
    (hmissed : locked' here = none → key? = none) :
    Answered σ t₀ u c' wants locked' (here :: done) here := by
  intro finder' hf
  cases hfinder.symm.trans hf
  have ⟨q, hq, hq', hnone⟩ := h.sources hknown hsort
  have hcongr : locked'.finder? q = locked.finder? q :=
    LockedAt.finder?_congr fun hne => hsame _ (h.closed hq hne)
  exact .inl ⟨q, List.mem_cons_of_mem _ hq, fun heq => hhere (heq ▸ hq), hcongr.trans hq',
    fun hn => (hsame q hq).trans (hnone (hmissed hn))⟩

-- What a lookup under a lock has found is the store's answer, or has been found before.
theorem Walked.answered_of_found (h : Walked σ t₀ t c wants locked done) (hhere : here ∉ done)
    (habove : here ≠ [] → here.dropLast ∈ done) {kind : LockKind} {finder : Finder} {s : Nat}
    (hfinder : locked.finder? here = some finder) (hs : t ≤ s) (hu : s ≤ u)
    (hfound : LockFound σ t₀ s c kind finder (some (.node n)) c' u)
    (hkind : (wants here).Strong → .read ≤ kind) :
    Answered σ t₀ u c' wants (locked.set here n) (here :: done) here := by
  have hsame : ∀ q ∈ done, locked.set here n q = locked q := fun q hq =>
    LockedAt.set_of_ne fun heq => hhere (heq ▸ hq)
  have hfinder' : (locked.set here n).finder? here = some finder :=
    (LockedAt.finder?_congr fun hne => hsame _ (habove hne)).trans hfinder
  have hasked (m : Nat) (hf : Program.FoundBy σ c.tx s u kind finder (some (.node n)) m) :
      Answered σ t₀ u c' wants (locked.set here n) (here :: done) here := by
    have ha := (hfound.advances hu).mono hs le_rfl
    refine h.answered_of_lookup hfinder' (fun hne => hsame _ (habove hne)) (hs.trans hf.le) hf.lt.le
      (by rw [LockedAt.set_self, ← hf.eq]; rfl) (fun m hm hstrong => ?_) ha
    rw [LockedAt.set_self] at hm
    cases hm
    exact ha.grows.tx ▸ hf.restsOn (LockKind.read_le_iff.mp (hkind hstrong)) rfl
  cases hkey : finder.key?
  case some key =>
    have ⟨m, hf⟩ := hfound.asked hkey
    exact hasked m hf
  case none =>
    obtain hknown | ⟨m, hf⟩ := hfound.source
    · refine h.answered_of_known hhere hfinder' hsame hknown (.inr hkey) fun hnone => ?_
      rw [LockedAt.set_self] at hnone
      cases hnone
    · exact hasked m hf

-- A node found at a position is placed there, at a kind that covers what is wanted.
theorem LockFound.placed {kind : LockKind} {finder : Finder}
    (h : LockFound σ t₀ t c kind finder (some (.node n)) c' u)
    (hfinder : locked.finder? here = some finder)
    (hcovers : ∀ weaker, want.Covers weaker → weaker ≤ kind)
    (htyped : want.typedLeaf → .read ≤ kind) : Placed σ t₀ u c' want locked here n where
  seen := by
    have ⟨τ, h₀, hτ, hm, hr⟩ := (h.locked rfl).seen
    refine ⟨τ, h₀, hτ, hm, fun hstrong => hr (LockKind.read_le_iff.mp ?_)⟩
    exact hstrong.elim htyped (hcovers .read)
  holds hc := LockSet.holds_of_le (h.locked rfl).holds (hcovers _ hc)
  known := ⟨_, (h.locked rfl).known⟩
  place := ⟨finder, hfinder, (h.locked rfl).fits⟩

-- A node is found under a lock.
theorem Walked.found (h : Walked σ t₀ t c wants locked done) (hhere : here ∉ done)
    (habove : here ≠ [] → here.dropLast ∈ done) {kind : LockKind} {finder : Finder} {s : Nat}
    (hfinder : locked.finder? here = some finder) (hs : t ≤ s) (hu : s ≤ u)
    (hfound : LockFound σ t₀ s c kind finder (some (.node n)) c' u)
    (hcovers : ∀ weaker, (wants here).Covers weaker → weaker ≤ kind)
    (htyped : (wants here).typedLeaf → .read ≤ kind) (hallows : (wants here).Allows kind) :
    Walked σ t₀ u c' wants (locked.set here n) (here :: done) := by
  have hplaced := hfound.placed hfinder hcovers htyped
  have hanswered := h.answered_of_found hhere habove hfinder hs hu hfound fun hstrong =>
    hstrong.elim htyped (hcovers .read)
  refine h.set hhere habove ((hfound.advances hu).mono hs le_rfl) ?nodes
    (fun f key? hf hsort => ?sources) hplaced (fun key k hk => ?held) hanswered
  case nodes =>
    have hfound : LockFound σ t₀ s c kind finder ((some n).map .node) c' u := hfound
    refine hfound.nodesOnly h.toNodesOnly (fun p m hm => ?_) fun m hm => ?_
    · have hne : p ≠ here := fun heq => hhere (heq ▸ h.done_of hm)
      rwa [LockedAt.set_of_ne hne]
    · cases hm
      exact ⟨here, LockedAt.set_self⟩
  case sources =>
    exact (hfound.sources (LockedAt.finder?_root_or_named hfinder) hf hsort).imp_right
      fun ⟨heq, hne⟩ => ⟨heq ▸ hfinder, hne⟩
  case held =>
    refine (hfound.held hk).imp_right fun ⟨hle, hkey⟩ => ⟨hallows.mono hle, .inl ⟨n, ?_⟩⟩
    obtain ⟨row, hrow, rfl⟩ | ⟨hnone, -⟩ := hkey
    · cases hrow
      exact ⟨LockedAt.set_self, rfl⟩
    · cases hnone

-- The lookup under a lock finds nothing. Only a root that is not there has been locked for it.
theorem Walked.missed (h : Walked σ t₀ t c wants locked done) (hhere : here ∉ done)
    (habove : here ≠ [] → here.dropLast ∈ done) {kind : LockKind} {finder : Finder} {s : Nat}
    (hfinder : locked.finder? here = some finder) (hs : t ≤ s) (hu : s ≤ u)
    (hfound : LockFound σ t₀ s c kind finder none c' u) (hallows : (wants here).Allows kind) :
    Walked σ t₀ u c' wants locked (here :: done) := by
  have ha := (hfound.advances hu).mono hs le_rfl
  have hnone : locked here = none := h.none_of_not_done hhere
  have ⟨_, m, hm, hlt, hlookup, _⟩ := hfound.absent rfl
  refine h.skip hhere habove ha ?nodes (fun f key? hf => ?sources) (fun key k hk => ?held) ?answered
  case nodes =>
    have hfound : LockFound σ t₀ s c kind finder (Option.map .node none) c' u := hfound
    exact hfound.nodesOnly h.toNodesOnly (fun _ _ => id) fun _ hn => by cases hn
  case sources =>
    by_cases heq : f = finder
    case pos => exact .inr (heq ▸ hfinder)
    case neg => exact .inl (((hfound.singles heq).resolve_right (by simp)).symm.trans hf)
  case held =>
    refine (hfound.held hk).imp_right fun ⟨hle, hkey⟩ => ⟨hallows.mono hle, .inr ⟨?_, hnone⟩⟩
    obtain ⟨row, hrow, -⟩ | ⟨-, hkey⟩ := hkey
    · cases hrow
    · by_contra hne
      cases (LockedAt.key?_of_finder? hne hfinder).symm.trans hkey
  case answered =>
    refine h.answered_of_lookup hfinder (fun _ => rfl) (hs.trans hm) hlt.le
      (by rw [hnone]; exact hlookup.symm) (fun n hn => ?_) ha
    cases hnone.symm.trans hn

-- Nothing is locked, for there has been nothing to find.
theorem Walked.unfound (h : Walked σ t₀ t c wants locked done) (hhere : here ∉ done)
    (habove : here ≠ [] → here.dropLast ∈ done) {finder : Finder}
    (hfinder : locked.finder? here = some finder) (hu : t ≤ u)
    (hmissed : c.singles finder = some none ∨
      ∃ m, t ≤ m ∧ m ≤ u ∧ (σ.rows m).lookup finder = none) :
    Walked σ t₀ u c wants locked (here :: done) := by
  have ha : Advances σ t₀ t u c c := .wait h.tracks hu
  refine h.skip hhere habove ha h.toNodesOnly (fun _ _ => .inl) (fun _ _ => .inl) ?_
  obtain hknown | ⟨m, hm, hmu, hlookup⟩ := hmissed
  · exact h.answered_of_known hhere hfinder (fun _ _ => rfl) hknown (.inl rfl) fun _ => rfl
  · have hnone : locked here = none := h.none_of_not_done hhere
    refine h.answered_of_lookup hfinder (fun _ => rfl) hm hmu (by rw [hnone]; exact hlookup)
      (fun n hn => ?_) ha
    cases hnone.symm.trans hn

theorem lockPosition_walked (h : Walked σ t₀ t c (Want.ofPaths mode paths) locked done)
    (hhere : here ∉ done) (habove : here ≠ [] → here.dropLast ∈ done)
    (hon : ∃ path ∈ paths, here <+: path) (hfresh : here = [] → c.rows (.node .root) = none) :
    Gives σ (lockPosition mode paths locked here rest) c t fun locked' c' u =>
      Walked σ t₀ u c' (Want.ofPaths mode paths) locked' (here :: done) ∧ c.Grows c' := by
  rw [lockPosition]
  split
  case h_1 finder hfinder =>
    have hnodes := LockedAt.finder?_findsNodes hfinder
    have hkeys : ∀ key, finder.key? = some key → c.rows key = none := by
      intro key hkey
      by_cases hne : here = []
      case pos =>
        subst hne
        cases hfinder
        cases hkey
        exact hfresh rfl
      case neg =>
        rw [LockedAt.key?_of_finder? hne hfinder] at hkey
        cases hkey
    refine (settleKind_gives h.tracks h.opened hnodes).bind ?_
    rintro kind c s hs ⟨rfl, hnone, hkind⟩
    split
    case h_1 kind =>
      have ⟨hcovers, htyped, hallows⟩ := hkind kind rfl
      refine (lockNode_found (h.tracks.mono hs hs) h.opened hkeys hnodes).bind
        fun node c' u hu hfound => ?_
      have hgrows := hfound.grows
      split
      case h_1 node =>
        have hwalked := h.found hhere habove hfinder hs hu hfound hcovers
          (fun ht => htyped ht (Want.mode_of_typedLeaf ht rfl).1) hallows
        refine Gives.bind (P := fun _ c'' v => u ≤ v ∧ c'' = c')
          (noteDeadEnd_gives fun v hv => ⟨hv, rfl⟩) ?_
        rintro _ _ v - ⟨hv, rfl⟩
        exact .pure ⟨hwalked.wait hv, hgrows⟩
      case h_2 hnode =>
        have hnode : node = none := by cases node <;> simp_all
        subst hnode
        exact .pure ⟨h.missed hhere habove hfinder hs hu hfound hallows, hgrows⟩
    case h_2 hkind =>
      have hkind : kind = none := by cases kind <;> simp_all
      refine .pure ⟨h.unfound hhere habove hfinder hs ((hnone hkind).resolve_left ?_), .refl _⟩
      -- Something is wanted at every position of a path.
      rintro ⟨htyped, hwant⟩
      have ⟨path, hpath, hprefix⟩ := hon
      obtain ht | ⟨k, hk⟩ : (Want.ofPaths mode paths here).typedLeaf ∨ _ :=
        Want.ofPaths_wanted hpath hprefix
      · cases htyped.symm.trans ht
      · cases hwant.symm.trans hk
  case h_2 hnone =>
    refine .pure ⟨h.skip hhere habove (.wait h.tracks le_rfl) h.toNodesOnly (fun _ _ => .inl)
      (fun _ _ => .inl) ?_, .refl _⟩
    exact fun finder hf => absurd hf (hnone finder)

theorem walk_walked {before : List Position} (hclosure : Position.closure paths = before ++ rest)
    (hrest : ∀ p ∈ rest, p ≠ []) (hdone : ∀ p, p ∈ done ↔ p ∈ before)
    (h : Walked σ t₀ t c (Want.ofPaths mode paths) locked done) :
    Gives σ (walk mode paths locked rest) c t fun locked' c' u =>
      ∃ done', (∀ p, p ∈ done' ↔ p ∈ Position.closure paths) ∧
        Walked σ t₀ u c' (Want.ofPaths mode paths) locked' done' ∧ c.Grows c' := by
  induction rest generalizing before done locked c t
  case nil =>
    refine .pure ⟨done, fun p => ?_, h, .refl c⟩
    rw [hclosure, List.append_nil]
    exact hdone p
  case cons here rest ih =>
    rw [walk]
    have ⟨hhere, habove⟩ := Position.of_closure_eq hclosure
    have hon := Position.mem_closure_iff.mp (hclosure ▸ List.mem_append_right _ List.mem_cons_self)
    have hne : here ≠ [] := hrest here List.mem_cons_self
    refine (lockPosition_walked h (mt (hdone here).mp hhere) (fun hne => (hdone _).mpr (habove hne))
      hon fun hnil => absurd hnil hne).bind fun locked' c' u _ ⟨hwalked, hgrows⟩ => ?_
    have hclosure : Position.closure paths = (before ++ [here]) ++ rest := by simpa using hclosure
    refine (ih hclosure (fun p hp => hrest p (List.mem_cons_of_mem _ hp)) (fun p => ?_)
      hwalked).mono ?_
    · simp [hdone, or_comm]
    · exact fun locked'' c'' v _ ⟨done', hdone', hwalked', hgrows'⟩ =>
        ⟨done', hdone', hwalked', hgrows.trans hgrows'⟩

theorem Walked.start (tx : TxId) :
    Walked σ t t (.new tx) wants .nowhere [] where
  tracks := .new tx
  opened := rfl
  nodes h := by cases h
  lists _ := rfl
  held h := absurd h LockSet.not_holds_empty
  sources h := by cases h
  closed h := by cases h
  done_of h := by cases h
  placed h := by cases h
  answered h := by cases h

theorem walkAll_walked {tx : TxId} (hne : paths ≠ []) :
    Gives σ (walk mode paths .nowhere (Position.closure paths)) (.new tx) t fun locked c u =>
      ∃ done, (∀ p, p ∈ done ↔ p ∈ Position.closure paths) ∧
        Walked σ t u c (Want.ofPaths mode paths) locked done ∧ (Context.new tx).Grows c := by
  have ⟨rest, hclosure, hrest⟩ := Position.closure_eq_cons hne
  have hon := Position.mem_closure_iff.mp (hclosure ▸ List.mem_cons_self)
  rw [hclosure, walk]
  refine (lockPosition_walked (.start tx) (by simp) (by simp) hon fun _ => rfl).bind ?_
  rintro locked c s - ⟨hwalked, hgrows⟩
  have hsplit : Position.closure paths = [[]] ++ rest := hclosure
  refine (walk_walked hsplit hrest (by simp) hwalked).mono ?_
  rintro locked' c' u - ⟨done, hdone, hwalked', hgrows'⟩
  exact ⟨done, hclosure ▸ hdone, hwalked', hgrows.trans hgrows'⟩

theorem noteResolved_gives {parsed : List (String × Position)} :
    Gives σ (parsed.forM (noteResolved locked)) c t fun _ c' u => t ≤ u ∧ c' = c := by
  induction parsed generalizing t
  case nil => exact .pure ⟨le_rfl, rfl⟩
  case cons path parsed ih =>
    change Gives σ (noteResolved locked path >>= fun _ => parsed.forM (noteResolved locked)) c t _
    refine Gives.bind (P := fun _ c' u => c' = c) (log_gives fun u _ => rfl) ?_
    rintro _ _ s hs rfl
    exact ih.mono fun _ _ _ _ ⟨hu, hc⟩ => ⟨hs.trans hu, hc⟩

-- What a walk over the paths has found when it ends.
structure WalkEnd (σ : Timeline) (t₀ : Nat) (tx : TxId) (mode : NodeMode)
    (parsed : List (String × Position)) (chains : Chains) (c : Context) (u : Nat)
    (locked : LockedAt) (done : List Position) : Prop where
  walked : Walked σ t₀ u c (Want.ofPaths mode (parsed.map Prod.snd)) locked done
  done_iff {p : Position} : p ∈ done ↔ p ∈ Position.closure (parsed.map Prod.snd)
  grows : (Context.new tx).Grows c
  chains_eq : chains = .ofList (parsed.map fun (path, names) => (path, locked.chainTo names))

theorem lockPaths_gives {tx : TxId} {texts : List String} {parsed : List (String × Position)}
    (hparsed : texts.mapM parsePath = .ok parsed) (hne : parsed ≠ []) :
    Gives σ (lockPaths mode texts) (.new tx) t fun chains c u =>
      ∃ locked done, WalkEnd σ t tx mode parsed chains c u locked done := by
  rw [lockPaths, hparsed]
  refine Gives.bind (P := fun r c' s => parsed = r ∧ .new tx = c' ∧ t = s)
    (.done ⟨parsed, rfl, rfl, rfl, rfl⟩) ?_
  rintro _ _ _ - ⟨rfl, rfl, rfl⟩
  refine Gives.bind (walkAll_walked (by simpa using hne)) ?_
  rintro locked c s hs ⟨done, hdone, hwalked, hgrows⟩
  refine Gives.bind noteResolved_gives ?_
  rintro _ _ u - ⟨hu, rfl⟩
  refine .pure ⟨locked, done, hwalked.wait hu, hdone _, hgrows, rfl⟩

end Action

end NamespaceService
