import NamespaceService.Proofs.Namespace.Linearization
import NamespaceService.Proofs.Namespace.Refinement

namespace NamespaceService

open NamespaceService.Action Context Timeline

-- Each node on the way was, at some moment, the entry of its name in the one before it.
inductive Timeline.Leads (σ : Timeline) (t u : Nat) : Position → NodeId → Prop
  | root : Leads σ t u [] .root
  | entry {p : Position} {dir : NodeId} {n : Node} (h : Leads σ t u p dir) (hn : σ.Seen t u (.node n))
    (hentry : n.isEntryOf dir) : Leads σ t u (p ++ [n.name]) n.id

theorem Timeline.Leads.mono {σ : Timeline} {t t' u u' : Nat} {p : Position} {id : NodeId}
    (h : Leads σ t u p id) (ht : t' ≤ t) (hu : u ≤ u') : Leads σ t' u' p id := by
  induction h
  case root => exact .root
  case entry hn hentry ih =>
    have ⟨τ, h₀, hτ, hmem⟩ := hn
    exact .entry ih ⟨τ, ht.trans h₀, hτ.trans hu, hmem⟩ hentry

theorem Secured.leads {σ : Timeline} {t u : Nat} {tx : TxId} {mode : NodeMode}
    {parsed : List (String × Position)} {resolved : Resolved} {c : Context} {locked : LockedAt}
    {done : List Position} {p : Position} {n : Node}
    (h : Secured σ t tx mode parsed resolved c u locked done) (hn : locked p = some n) :
    Leads σ t u p n.id := by
  induction p using List.reverseRecOn generalizing n
  case nil =>
    have ⟨finder, hfinder, old, _, hkey, hsel⟩ := (h.survey.placed hn).place
    cases hfinder
    rw [show n.id = .root from Key.node.inj (hkey.symm.trans (Finder.key_of_selects rfl hsel))]
    exact .root
  case append_singleton p name ih =>
    have ⟨finder, hfinder, old, hold, hkey, hsel⟩ := (h.survey.placed hn).place
    obtain ⟨dir, name', hdir, -, hlast, rfl⟩ := LockedAt.finder?_eq_some (by simp) hfinder
    rw [List.dropLast_concat] at hdir
    obtain ⟨m, rfl, hentry, hname⟩ := Finder.selects_nodeNamed hsel
    rw [← show m.id = n.id from Key.node.inj hkey,
      show name = m.name by simpa [hname] using hlast]
    exact .entry (ih hdir) hold hentry

-- The names of the entries that the directory has in the rows, in ascending order.
structure Rows.Lists (rows : Rows) (dir : Node) (listing : List String) : Prop where
  present : .node dir ∈ rows.toList
  isDirectory : dir.isDirectory
  sorted : listing.Pairwise Ranked.Before
  mem_iff {name : String} : name ∈ listing ↔
    ∃ n, .node n ∈ rows.toList ∧ n.isEntryOf dir.id ∧ n.name = name

namespace Namespace

theorem nodup_childrenIn_names {rows : Rows} (h : rows.Hierarchy) (dir : NodeId) :
    ((childrenIn rows dir).map Node.name).Nodup := by
  refine Rows.nodup_childrenIn.map_on fun m hm n hn hname => ?_
  obtain ⟨hm, hmroot, hmparent⟩ := mem_childrenIn_iff.mp hm
  obtain ⟨hn, hnroot, hnparent⟩ := mem_childrenIn_iff.mp hn
  exact h.unique hm hn hmroot hnroot (hmparent.trans hnparent.symm) hname

namespace ListDirectory

open UnitOfWork

theorem lists_childrenIn {rows : Rows} {dir : Node} (h : rows.Hierarchy)
    (hdir : .node dir ∈ rows.toList) (hkind : dir.isDirectory) :
    rows.Lists dir (sortNames ((childrenIn rows dir.id).map Node.name)) where
  present := hdir
  isDirectory := hkind
  sorted := sortNames_sorted (nodup_childrenIn_names h dir.id)
  mem_iff {name} := by
    simp only [mem_sortNames_iff, List.mem_map, mem_childrenIn_iff, Rows.isEntryOf_iff, and_assoc]

-- The attempt's listing is that of the moment at which its commit is accepted.
theorem lists_of_accepts {σ : Timeline} {config : TransactionConfig} {name path : String}
    {t n : Nat} {listing : List String} (hlock : config.rowLevelLock)
    (o : Attempted σ config name (requests path) (task path) t) (hresult : o.result = .ok listing)
    (hn : o.doneAt ≤ n) (hok : σ.Accepts n o.finish.tx o.finish.changes)
    (hrows : (σ.rows n).Hierarchy) : o.finish.changes = [] ∧ ∃ names dir,
      Path.components path = .ok names ∧ σ.Leads t n names dir.id ∧ (σ.rows n).Lists dir listing := by
  obtain ⟨names, c, locked, done, hnames, hc, h, hentries, hplanned⟩ := attempted hlock o
  obtain ⟨effect, hplan, rfl, hchanges⟩ := hplanned.effect hresult
  obtain ⟨dir, htarget, hdir, rfl⟩ := plan_eq_ok hplan
  have hlocked : locked names = some dir := htarget
  obtain ⟨found, hlisted⟩ := (hentries dir hlocked).listed hdir
  rw [hplanned.tx_eq hc] at hok
  have hu := o.works.le.trans hn
  have hpresent := h.survey.present hok hu hlocked (Want.ofPaths_leaf_strong (by simp) (by decide))
  have hfound := lookupList_of_listed hlisted (.inl rfl) (by decide) hok hu
  have hknown : c.knownChildren dir.id = childrenIn (σ.rows n) dir.id := by
    rw [knownChildren, hlisted.known, Option.getD_some, hfound, childrenIn]
  refine ⟨hchanges, names, dir, hnames, (h.leads hlocked).mono (o.le.trans o.lt.le) hu, ?_⟩
  rw [hknown]
  exact lists_childrenIn hrows hpresent hdir

end ListDirectory

end Namespace

namespace Session.NamespaceOperation

open Namespace Program UnitOfWork

variable {ι : Type} [DecidableEq ι] {op : ι → NamespaceOperation} {config : ι → TransactionConfig}
  {schedule : List ι} {i : ι} {path : String} {n : Nat} {tx : TxId} {changes : List Change}

-- What a listing has come to at the moment of its commit, and what it ends with later.
structure ListsAt (op : ι → NamespaceOperation) (config : ι → TransactionConfig) (schedule : List ι)
    (i : ι) (path : String) (n : Nat) (names : Position) (dir : Node) (listing : List String) :
    Prop where
  components : Path.components path = .ok names
  leads : (view op config schedule i).Leads 0 n names dir.id
  lists : ((crew op config).rowsAt schedule n).Lists dir listing
  result {x : Except Stop Value} :
    ((crew op config).run schedule).result? i = some x → x = .ok (.names listing)

section

variable (hop : op i = .listDirectory path)

include hop

-- An attempt whose commit is accepted at the moment, and its result if the operation has ended.
theorem exists_attempt (hok : (view op config schedule i).Accepts n tx changes) :
    ∃ (o : Attempted (view op config schedule i) (config i) ((config i).correlation "list")
        (ListDirectory.requests path) (ListDirectory.task path) 0) (listing : List String),
      o.result = .ok listing ∧ o.doneAt ≤ n ∧ tx = o.finish.tx ∧ changes = o.finish.changes ∧
        ∀ x, ((crew op config).run schedule).result? i = some x → x = .ok (.names listing) := by
  have hreaches := reaches_of_accepts hok
  have hexecute : (op i).execute (config i) = give (config i) (Namespace.listDirectory path) .names := by
    rw [hop]
    rfl
  cases hx : ((crew op config).run schedule).result? i
  case none =>
    rw [hexecute] at hreaches
    obtain ⟨o, ⟨listing, hresult⟩, hn, -, htx, hchanges⟩ :=
      execute_reaches (fun _ => listDirectory_reads) (give_reaches hreaches)
    exact ⟨o, listing, hresult, hn, htx, hchanges, nofun⟩
  case some x =>
    obtain ⟨u, hruns⟩ := runs_of_result hx
    obtain ⟨value, rfl⟩ := execute_commitsLast.runs hreaches hok hruns
    rw [hexecute] at hruns
    obtain ⟨r, v, hr, hvalue⟩ := give_runs hruns
    cases r
    case error => cases hvalue
    case ok listing =>
      -- The operation has only one commit that is accepted.
      obtain ⟨o, m, hresult, hm, hlt, hok'⟩ := execute_runs_ok hr
      obtain rfl : n = m := commit_unique hreaches hok (reaches_of_accepts hok') hok'
      cases hok.1.symm.trans hok'.1
      refine ⟨o, listing, hresult, hm, rfl, rfl, fun y hy => ?_⟩
      rw [← Option.some.inj hy]
      exact hvalue

-- Whatever the others do meanwhile, a listing shows the directory as it is at the moment of the
-- commit, and each listing that is given has been committed. The commit rests on the version of the
-- directory, which goes up when something is put into it or made in it, and on those of the
-- entries, which go up when they leave it.
theorem listDirectory_commits (hlock : ∀ i, (config i).rowLevelLock) :
    (∀ {n tx changes}, (view op config schedule i).Accepts n tx changes → changes = [] ∧
      ∃ names dir listing, ListsAt op config schedule i path n names dir listing) ∧
    ∀ value, ((crew op config).run schedule).result? i = some (.ok value) →
      ∃ n tx, n < schedule.length ∧ (view op config schedule i).Accepts n tx [] := by
  have hcommits {n : Nat} {tx : TxId} {changes : List Change}
      (hok : (view op config schedule i).Accepts n tx changes) : changes = [] ∧
      ∃ names dir listing, ListsAt op config schedule i path n names dir listing := by
    obtain ⟨o, listing, hresult, hn, rfl, rfl, hends⟩ := exists_attempt hop hok
    have hrows : ((view op config schedule i).rows n).Hierarchy :=
      (crewIn_tidy hlock .new n).hierarchy
    obtain ⟨hnone, names, dir, hnames, hleads, hlists⟩ :=
      ListDirectory.lists_of_accepts (hlock i) o hresult hn hok hrows
    exact ⟨hnone, names, dir, listing, hnames, hleads, hlists, hends _⟩
  refine ⟨hcommits, fun value hvalue => ?_⟩
  obtain ⟨u, hruns⟩ := runs_of_result hvalue
  rw [hop] at hruns
  obtain ⟨r, v, hr, hvalue⟩ := give_runs hruns
  cases r
  case error => cases hvalue
  case ok listing =>
    obtain ⟨o, n, -, -, -, hok⟩ := execute_runs_ok hr
    obtain ⟨hnone, -⟩ := hcommits hok
    have hmember := List.getElem?_eq_some_iff.mp (Crew.member_of_turn hok.turn_ne)
    exact ⟨n, o.finish.tx, hmember.1, hnone ▸ hok⟩

end

def names? : Except Stop Value → Option (List String)
  | .ok (.names listing) => some listing
  | _ => none

theorem eq_of_names? {result : Except Stop Value} {listing : List String}
    (h : names? result = some listing) : result = .ok (.names listing) := by
  cases result
  case error => cases h
  case ok value =>
    cases value
    case names => rw [Option.some.inj h]
    all_goals cases h

-- While the root is listed, the directory in it gets another name, and the listing is tried again.
theorem listDirectory_commits_renamed :
    let op : Option Bool → NamespaceOperation := fun
      | none => .makeDirectory "/a"
      | some true => .rename "/a" "/b"
      | some false => .listDirectory "/"
    let schedule := List.replicate 16 none ++ List.replicate 7 (some false) ++
      List.replicate 30 (some true) ++ List.replicate 30 (some false)
    TransactionConfig.rowLevelLock {} ∧ op (some false) = .listDirectory "/" ∧
      ∃ n dir, n < schedule.length ∧
        ((crew op fun _ => {}).rowsAt schedule n).Lists dir ["b"] := by
  intro op schedule
  have hresult : (((crew op fun _ => {}).run schedule).result? (some false)).bind
      names? = some ["b"] := by decide +kernel
  obtain ⟨x, hx, hnames⟩ := Option.bind_eq_some_iff.mp hresult
  obtain rfl := eq_of_names? hnames
  obtain ⟨hcommits, hended⟩ :=
    @listDirectory_commits _ _ op (fun _ => {}) schedule (some false) "/" rfl fun _ => rfl
  obtain ⟨n, tx, hlt, hok⟩ := hended _ hx
  obtain ⟨-, names, dir, listing, hlists⟩ := hcommits hok
  cases hlists.result hx
  exact ⟨rfl, rfl, n, dir, hlt, hlists.lists⟩

end Session.NamespaceOperation

end NamespaceService
