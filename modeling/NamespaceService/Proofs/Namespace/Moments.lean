import NamespaceService.Proofs.Namespace.Places

namespace NamespaceService

open NamespaceService.Action Context Timeline

namespace Secured

variable {σ : Timeline} {t u s : Nat} {tx : TxId} {mode : NodeMode}
  {parsed : List (String × Position)} {resolved : Resolved} {c : Context} {locked : LockedAt}
  {done : List Position} {path : String} {names p q : Position} {m n : Node}

-- Whenever a node is there that was found on the way, it is where it was found.
theorem place_eq (h : Secured σ t tx mode parsed resolved c u locked done) (hσ : σ.Unmoved)
    (hn : locked p = some n) (hm : .node m ∈ (σ.rows s).toList) (hid : m.id = n.id) :
    (σ.rows s).place p = some m := by
  induction p using List.reverseRecOn generalizing m n
  case nil =>
    have ⟨finder, hfinder, old, _, hkey, hsel⟩ := (h.survey.placed hn).place
    cases hfinder
    have hroot : n.id = .root := Key.node.inj (hkey.symm.trans (Finder.key_of_selects rfl hsel))
    cases (hσ.hierarchy s).eq_root hm (Rows.isRoot_iff.mpr (hid.trans hroot))
    exact (hσ.hierarchy s).place_nil
  case append_singleton q name ih =>
    have ⟨finder, hfinder, old, ⟨τ, _, _, hold⟩, hkey, hsel⟩ := (h.survey.placed hn).place
    obtain ⟨parent, name', hparent, hdir, hlast, rfl⟩ := LockedAt.finder?_eq_some (by simp) hfinder
    rw [List.dropLast_concat] at hparent
    have hname : name' = name := by simpa using hlast.symm
    subst hname
    obtain ⟨o, rfl, hentry, honame⟩ := Finder.selects_nodeNamed hsel
    obtain ⟨hbelow, hoparent⟩ := Rows.isEntryOf_iff.mp hentry
    have hoid : o.id = n.id := Key.node.inj hkey
    have hmo := hσ.alike hold hm (hid.trans hoid.symm)
    have hmb : ¬m.isRoot := by
      rw [Rows.isRoot_iff, hmo.id_eq, ← Rows.isRoot_iff]
      exact hbelow
    have hmparent := hmo.parent_eq.trans hoparent
    obtain ⟨dir, hdirmem, hdirid, hd⟩ := (hσ.hierarchy s).parent hm hmb
    rw [Rows.place_concat, ih hparent hdirmem (hdirid.trans hmparent), Option.bind_some]
    exact (hσ.hierarchy s).entryNamed?_eq_some_iff.mpr
      ⟨hd, hm, hmb, hdirid.symm, hmo.name_eq.trans honame⟩

-- A node that was found was in place at the moment at which it was seen.
theorem place_of_found (h : Secured σ t tx mode parsed resolved c u locked done) (hσ : σ.Unmoved)
    (hn : locked p = some n) :
    ∃ τ, t ≤ τ ∧ τ ≤ u ∧ .node n ∈ (σ.rows τ).toList ∧ (σ.rows τ).place p = some n := by
  have ⟨τ, h₀, hτ, hmem, _⟩ := (h.survey.placed hn).seen
  exact ⟨τ, h₀, hτ, hmem, h.place_eq hσ hn hmem rfl⟩

-- The walk along one path looks up nothing beyond the first position that it misses.
theorem missed_unique (h : Secured σ t tx mode [(path, names)] resolved c u locked done)
    (hp : p ∈ done) (hq : q ∈ done) (hpm : Missed locked p) (hqm : Missed locked q) : p = q := by
  have hon {p : Position} (hp : p ∈ done) : p <+: names := by
    have ⟨_, hmem, hprefix⟩ := h.mem_done_iff.mp hp
    rwa [List.mem_singleton.mp hmem] at hprefix
  have hlocked {p q : Position} (hpm : Missed locked p) (hqm : Missed locked q) (hpq : p <+: q) :
      p = q := by
    by_contra hne
    obtain ⟨hnone, finder, hfinder⟩ := hqm
    have hqne : q ≠ [] := fun hnil => hne ((List.prefix_nil.mp (hnil ▸ hpq)).trans hnil.symm)
    obtain ⟨parent, name, hparent, -⟩ := LockedAt.finder?_eq_some hqne hfinder
    have ⟨m, hm⟩ := h.survey.prefixClosed.of_prefix hparent (Position.prefix_dropLast hpq hne)
    cases hpm.1.symm.trans hm
  obtain hpq | hqp := List.prefix_or_prefix_of_prefix (hon hp) (hon hq)
  · exact hlocked hpm hqm hpq
  · exact (hlocked hqm hpm hqp).symm

-- The root is always found.
theorem root_locked (h : Secured σ t tx mode [(path, names)] resolved c u locked done)
    (hσ : σ.Tended) : ∃ n, locked [] = some n := by
  by_contra! hnone
  have hnil : locked [] = none := by simpa [Option.eq_none_iff_forall_ne_some] using hnone
  have hdone : [] ∈ done := h.mem_done_iff.mpr ⟨names, by simp, List.nil_prefix⟩
  obtain ⟨q, hq, hne, hmissed⟩ | ⟨τ, _, _, hlookup, -⟩ := h.survey.missing hdone hnil _ rfl
  · exact hne (h.missed_unique hq hdone hmissed ⟨hnil, _, rfl⟩)
  · have := Rows.lookup_eq_none_iff.mp hlookup _ (hσ.hierarchy τ).root
    simp [Finder.selects, Finder.key?, Row.key, Node.root] at this

-- A position that was missed was empty at some moment, though its directory may have been looked up
-- before it was removed.
theorem place_of_missed (h : Secured σ t tx mode [(path, names)] resolved c u locked done)
    (hσ : σ.Tended) (hdone : p ∈ done) (hnone : locked p = none) :
    ∃ τ, t ≤ τ ∧ τ ≤ u ∧ (σ.rows τ).place p = none := by
  induction p using List.reverseRecOn
  case nil =>
    obtain ⟨n, hn⟩ := h.root_locked hσ
    cases hnone.symm.trans hn
  case append_singleton q name ih =>
    have hq : q ∈ done := by simpa using h.survey.closed hdone (by simp)
    cases hdir : locked q
    case none =>
      obtain ⟨τ, h₀, hτ, hplace⟩ := ih hq hdir
      exact ⟨τ, h₀, hτ, Rows.place_none_of_above hplace (List.prefix_append q [name])⟩
    case some dir =>
      obtain ⟨τ, h₀, hτ, hmem, hplace⟩ := h.place_of_found hσ.unmoved hdir
      by_cases hd : dir.isDirectory
      case neg =>
        refine ⟨τ, h₀, hτ, ?_⟩
        rw [Rows.place_concat, hplace, Option.bind_some, Rows.entryNamed?, if_neg hd]
      case pos =>
        have hfinder : locked.finder? (q ++ [name]) = some (.nodeNamed dir.id name) := by
          simp [LockedAt.finder?, hdir, hd]
        obtain ⟨r, hr, hne, hmissed⟩ | ⟨v, _, hv, hlookup, hparent⟩ :=
          h.survey.missing hdone hnone _ hfinder
        · exact absurd (h.missed_unique hr hdone hmissed ⟨hnone, _, hfinder⟩) hne
        · obtain ⟨⟨w, hw, hw₀, hwmem⟩, _⟩ := hparent dir (by simp) (by simpa using hdir)
          have hwplace := h.place_eq hσ.unmoved hdir hwmem rfl
          obtain ⟨s, hs, hsv, hsplace⟩ := hσ.place_missing hwplace hw hlookup
          exact ⟨s, hw₀.trans hs, hsv.trans hv, hsplace⟩

end Secured

end NamespaceService
