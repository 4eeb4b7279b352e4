/-
The initialization requisites of a compilation unit: which interfaces are
listed, in which order, and which of them are marked for initialization.
-/
import SmlSharp.LoadFile.Revisit

namespace SmlSharp

namespace LoadFile

open InterfaceName hiding hash

variable {T I : Type}

/-! ### References that ask for initialization -/

def asksInit (options : List (String × Loc)) : Bool :=
  options.any fun option => option.1 = "init"

/-- The references of an interface file that were followed, each with whether it
asks for initialization.  The edges of the file are in the order of its
references; a reference without an edge was not followed. -/
def followed : List Irequire → List FileDependencyEdge →
    List (Bool × FileDependencyNode)
  | .require _ options _ :: requires, .edge .require node _ :: edges =>
    (asksInit options, node) :: followed requires edges
  | .localRequire _ options _ :: requires, .edge .localRequire node _ :: edges =>
    (asksInit options, node) :: followed requires edges
  | .localUse _ _ :: requires, .edge .localUse _ _ :: edges =>
    followed requires edges
  | _ :: requires, edges => followed requires edges
  | [], _ => []

/-- The references by which a file requires interfaces.  Those of an include
file take no option. -/
def initRefs (fs : FileSystem T I) (node : FileDependencyNode) :
    List (Bool × FileDependencyNode) :=
  match fs.parseSmi node.filename with
  | .ok (.interface requires _) => followed requires node.edges
  | .ok (.includes _ _) => node.edges.map fun edge => (false, edge.node)
  | .error _ => []

/-- A path of traversed references, and whether it passes one with `init`. -/
inductive Path (fs : FileSystem T I) :
    FileDependencyNode → FileDependencyNode → Bool → Prop where
  | here (node : FileDependencyNode) : Path fs node node false
  | step {node next final : FileDependencyNode} {init passed : Bool}
      (ref : (init, next) ∈ initRefs fs node) (rest : Path fs next final passed) :
      Path fs node final (init || passed)

def Leads (fs : FileSystem T I) (node final : FileDependencyNode) : Prop :=
  ∃ passed, Path fs node final passed

/-- The interfaces that a file requires, directly or not. -/
def Requires (fs : FileSystem T I) (node final : FileDependencyNode) : Prop :=
  ∃ ref ∈ initRefs fs node, Leads fs ref.2 final

/-- A path with `init` that leaves every include file before the `init` by the
last of its includes that leads to the interface. -/
inductive LastPath (fs : FileSystem T I) :
    FileDependencyNode → FileDependencyNode → Prop where
  | init {node next final : FileDependencyNode}
      (ref : (true, next) ∈ initRefs fs node) (rest : Leads fs next final) :
      LastPath fs node final
  | require {node next final : FileDependencyNode} {init : Bool}
      (type : node.fileType ≠ .includes) (ref : (init, next) ∈ initRefs fs node)
      (rest : LastPath fs next final) : LastPath fs node final
  | lastInclude {node next final : FileDependencyNode} {init : Bool}
      {front back : List (Bool × FileDependencyNode)}
      (type : node.fileType = .includes)
      (ref : initRefs fs node = front ++ (init, next) :: back)
      (last : ∀ later ∈ back, ¬ Leads fs later.2 final)
      (rest : LastPath fs next final) : LastPath fs node final

/-- The name of the interface in an interface file. -/
def nodeName (node : FileDependencyNode) : Option InterfaceName :=
  match node.fileType with
  | .interface hash => some ⟨hash, node.source⟩
  | _ => none

/-- The requisites list each required interface once, after the interfaces it
requires, and mark those to which a traversed path with `init` leads. -/
structure InitRequisitesOk (fs : FileSystem T I) (node : FileDependencyNode)
    (requisites : List (InitRequisite × InterfaceName)) : Prop where
  once : (requisites.map fun requisite => requisite.2.source.2).Nodup
  required : ∀ name, (∃ mark, (mark, name) ∈ requisites) ↔
    ∃ final, Requires fs node final ∧ nodeName final = some name
  ordered : ∀ pre requisite post, requisites = pre ++ requisite :: post →
    ∀ final, Leads fs node final → nodeName final = some requisite.2 →
    ∀ other name, Requires fs final other → nodeName other = some name →
      ∃ mark, (mark, name) ∈ pre
  marks : ∀ mark name, (mark, name) ∈ requisites →
    (mark = .initAlways ↔
      ∃ final, nodeName final = some name ∧ Path fs node final true)

variable {fs : FileSystem T I} {node final : FileDependencyNode} {requires : List Irequire}
  {edges : List FileDependencyEdge} {irequire : Irequire} {result : RequiresResult T I}

theorem Path.leads {passed : Bool} (hpath : Path fs node final passed) : Leads fs node final :=
  ⟨passed, hpath⟩

theorem Leads.refl (fs : FileSystem T I) (node : FileDependencyNode) :
    Leads fs node node :=
  ⟨false, .here node⟩

theorem leads_iff :
    Leads fs node final ↔ final = node ∨ Requires fs node final := by
  constructor
  · rintro ⟨passed, hpath⟩
    cases hpath with
    | here => exact Or.inl rfl
    | step ref rest => exact Or.inr ⟨_, ref, rest.leads⟩
  · rintro (rfl | ⟨⟨init, next⟩, href, passed, hpath⟩)
    · exact Leads.refl fs final
    · exact ⟨_, .step href hpath⟩

theorem Path.true_iff : Path fs node final true ↔ ∃ ref ∈ initRefs fs node,
      (ref.1 = true ∧ Leads fs ref.2 final) ∨ Path fs ref.2 final true := by
  constructor
  · intro hpath
    generalize hflag : true = flag at hpath
    cases hpath with
    | here => cases hflag
    | @step _ next _ init passed ref rest =>
      refine ⟨(init, next), ref, ?_⟩
      cases init with
      | true => exact Or.inl ⟨rfl, rest.leads⟩
      | false =>
        obtain rfl : passed = true := by simpa using hflag.symm
        exact Or.inr rest
  · rintro ⟨⟨init, next⟩, href, ⟨rfl, passed, hpath⟩ | hpath⟩
    · simpa using Path.step href hpath
    · simpa using Path.step href hpath

theorem LastPath.path (hlast : LastPath fs node final) : Path fs node final true := by
  induction hlast with
  | init ref rest => exact Path.true_iff.mpr ⟨_, ref, Or.inl ⟨rfl, rest⟩⟩
  | require type ref rest ih => exact Path.true_iff.mpr ⟨_, ref, Or.inr ih⟩
  | @lastInclude _ next _ init front back type ref last rest ih =>
    refine Path.true_iff.mpr ⟨(init, next), ?_, Or.inr ih⟩
    rw [ref]
    exact List.mem_append_right _ List.mem_cons_self

/-! ### Lists in which everything follows what it needs -/

/-- Every element of the list follows the elements related to it. -/
def FollowsAll {α : Type} (needs : α → α → Prop) (l : List α) : Prop :=
  ∀ pre x post, l = pre ++ x :: post → ∀ y, needs x y → y ∈ pre

theorem FollowsAll.snoc {α : Type} {needs : α → α → Prop} {l : List α} {x : α}
    (hl : FollowsAll needs l) (hx : ∀ y, needs x y → y ∈ l) :
    FollowsAll needs (l ++ [x]) := by
  intro pre z post hsplit y hy
  rcases List.eq_nil_or_concat post with rfl | ⟨init, last, rfl⟩
  · obtain ⟨rfl, hlast⟩ := List.append_inj' hsplit rfl
    cases hlast
    exact hx y hy
  · have hsplit' : l ++ [x] = (pre ++ z :: init) ++ [last] := by simpa using hsplit
    obtain ⟨hl', -⟩ := List.append_inj' hsplit' rfl
    exact hl pre z init hl' y hy

/-- Merging keeps the order: the elements of the second list come after the
first, and those that are in both stay where they were. -/
theorem FollowsAll.append_filter {α : Type} [DecidableEq α]
    {needs : α → α → Prop} {left right : List α} (hleft : FollowsAll needs left)
    (hright : FollowsAll needs right) :
    FollowsAll needs (left ++ right.filter (· ∉ left)) := by
  intro pre x post hsplit y hy
  rcases List.append_eq_append_iff.mp hsplit with
    ⟨middle, rfl, hfilter⟩ | ⟨middle, rfl, hpost⟩
  · obtain ⟨front, back, rfl, hfront, hback⟩ :=
      List.filter_eq_append_iff.mp hfilter
    obtain ⟨skipped, rest, rfl, hskipped, -, -⟩ :=
      List.filter_eq_cons_iff.mp hback
    have hmem := hright (front ++ skipped) x rest (by simp) y hy
    by_cases hin : y ∈ left
    · exact List.mem_append_left _ hin
    · apply List.mem_append_right
      rw [← hfront, List.mem_filter]
      refine ⟨?_, by simpa using hin⟩
      rcases List.mem_append.mp hmem with hmem | hmem
      · exact hmem
      · exact absurd hin (by simpa using hskipped y hmem)
  · cases middle with
    | nil =>
      simp only [List.append_nil, List.nil_append] at hleft hpost
      obtain ⟨skipped, rest, rfl, hskipped, -, -⟩ :=
        List.filter_eq_cons_iff.mp hpost.symm
      have hmem := hright skipped x rest rfl y hy
      simpa using hskipped y hmem
    | cons z middle =>
      simp only [List.cons_append, List.cons.injEq] at hpost
      obtain ⟨rfl, -⟩ := hpost
      exact hleft pre x middle rfl y hy

/-! ### Traversed references in the dependency graph -/

theorem followed_edge {ref : Bool × FileDependencyNode}
    (href : ref ∈ followed requires edges) : ∃ edge ∈ edges, edge.node = ref.2 := by
  induction requires, edges using followed.induct with
  | case1 path options loc requires node loc' edges ih =>
    rcases List.mem_cons.mp href with rfl | href
    · exact ⟨_, List.mem_cons_self, rfl⟩
    · obtain ⟨edge, hedge, hnode⟩ := ih href
      exact ⟨edge, List.mem_cons_of_mem _ hedge, hnode⟩
  | case2 path options loc requires node loc' edges ih =>
    rcases List.mem_cons.mp href with rfl | href
    · exact ⟨_, List.mem_cons_self, rfl⟩
    · obtain ⟨edge, hedge, hnode⟩ := ih href
      exact ⟨edge, List.mem_cons_of_mem _ hedge, hnode⟩
  | case3 path loc requires node loc' edges ih =>
    obtain ⟨edge, hedge, hnode⟩ := ih href
    exact ⟨edge, List.mem_cons_of_mem _ hedge, hnode⟩
  | case4 irequire requires edges hrequire hlocal huse ih =>
    rw [followed.eq_4 _ _ _ hrequire hlocal huse] at href
    exact ih href
  | case5 edges => cases href

theorem initRefs_refersTo {ref : Bool × FileDependencyNode} (href : ref ∈ initRefs fs node) :
    RefersTo node ref.2 := by
  rw [initRefs] at href
  split at href
  · exact followed_edge href
  · obtain ⟨edge, hedge, rfl⟩ := List.mem_map.mp href
    exact ⟨edge, hedge, rfl⟩
  · cases href

theorem Path.refersTo {passed : Bool} (hpath : Path fs node final passed) :
    Relation.ReflTransGen RefersTo node final := by
  induction hpath with
  | here node => exact .refl
  | step ref rest ih => exact .head (initRefs_refersTo ref) ih

theorem Requires.refersTo {fs : FileSystem T I} {node final : FileDependencyNode}
    (hrequires : Requires fs node final) :
    Relation.TransGen RefersTo node final := by
  obtain ⟨ref, href, passed, hpath⟩ := hrequires
  exact Relation.TransGen.head' (initRefs_refersTo href) hpath.refersTo

/-- The options of a reference that was followed ask for initialization, or
they do not; other options have been refused. -/
theorem requireInit_eq {options : List (String × Loc)} {init result : Bool}
    (heval : requireInit options init = .ok result) :
    result = (init || asksInit options) := by
  induction options, init using requireInit.induct with
  | case1 init =>
    cases heval
    simp [asksInit]
  | case2 init loc options ih =>
    rw [requireInit] at heval
    simpa [asksInit] using ih heval
  | case3 option loc options init hoption =>
    rw [requireInit.eq_3 _ _ _ _ hoption] at heval
    cases heval

/-! ### The requisites of completed files -/

/-- One interface file requires another. -/
def Needs (fs : FileSystem T I) (done : Entries T I) (x y : Filename) : Prop :=
  ∃ node ∈ nodesOf done, node.filename = x ∧
    ∃ other name, Requires fs node other ∧ nodeName other = some name ∧
      other.filename = y

/-- The store lists the interfaces that are reached, and marks those that are
always to be initialized. -/
structure Lists (fs : FileSystem T I) (done : Entries T I)
    (inits : Assoc Filename (InterfaceDec I × InitRequisite))
    (reached always : FileDependencyNode → Prop) : Prop where
  known : ∀ node, reached node → node ∈ nodesOf done
  always_reached : ∀ node, always node → reached node
  listed : ∀ node name, reached node → nodeName node = some name →
    ∃ entry, inits.find node.filename = some entry
  sound : ∀ filename entry, inits.find filename = some entry →
    ∃ node, reached node ∧ node.filename = filename ∧
      nodeName node = some entry.1.interfaceName ∧
      (entry.2 = .initAlways ↔ always node)
  ordered : FollowsAll (Needs fs done) inits.raw.keys.toList

section Lists

variable {fs : FileSystem T I} {done : Entries T I}
  {inits inits1 inits2 : Assoc Filename (InterfaceDec I × InitRequisite)}
  {reached reached1 reached2 always always1 always2 : FileDependencyNode → Prop}

theorem lists_empty (fs : FileSystem T I) (done : Entries T I) :
    Lists fs done .empty (fun _ => False) (fun _ => False) := by
  refine ⟨fun _ h => h.elim, fun _ h => h.elim, fun _ _ h => h.elim, ?_, ?_⟩
  · intro filename entry hfind
    cases hfind
  · intro pre x post hsplit
    simp [Assoc.empty, RawAssoc.empty, Keys.toList] at hsplit

theorem Lists.congr {reached' always' : FileDependencyNode → Prop}
    (h : Lists fs done inits reached always)
    (hreached : ∀ node, reached' node ↔ reached node)
    (halways : ∀ node, always' node ↔ always node) :
    Lists fs done inits reached' always' := by
  obtain rfl : reached' = reached := funext fun node => propext (hreached node)
  obtain rfl : always' = always := funext fun node => propext (halways node)
  exact h

/-- A reference with `init` marks everything that it reaches. -/
theorem Lists.markAll (h : Lists fs done inits reached always) :
    Lists fs done (inits.map fun entry => (entry.1, .initAlways)) reached
      reached where
  known := h.known
  always_reached _ hnode := hnode
  listed node name hnode hname := by
    obtain ⟨entry, hfind⟩ := h.listed node name hnode hname
    exact ⟨(entry.1, .initAlways), by rw [Assoc.find_map, hfind]; rfl⟩
  sound filename entry hfind := by
    rw [Assoc.find_map, Option.map_eq_some_iff] at hfind
    obtain ⟨found, hfind, rfl⟩ := hfind
    obtain ⟨node, hnode, hfile, hname, -⟩ := h.sound filename found hfind
    exact ⟨node, hnode, hfile, hname, fun _ => hnode, fun _ => rfl⟩
  ordered := h.ordered

/-- Two stores are merged under any choice of the mark for what both reach. -/
theorem Lists.concatWith {always' : FileDependencyNode → Prop}
    {f : InterfaceDec I × InitRequisite → InterfaceDec I × InitRequisite →
      InterfaceDec I × InitRequisite}
    (hunique : ∀ node ∈ nodesOf done, ∀ node' ∈ nodesOf done,
      node.filename = node'.filename → node = node')
    (h1 : Lists fs done inits1 reached1 always1)
    (h2 : Lists fs done inits2 reached2 always2)
    (hdec : ∀ entry1 entry2, (f entry1 entry2).1 = entry2.1)
    (hboth : ∀ node entry1 entry2, reached1 node → reached2 node →
      (entry1.2 = .initAlways ↔ always1 node) →
      (entry2.2 = .initAlways ↔ always2 node) →
      ((f entry1 entry2).2 = .initAlways ↔ always' node))
    (hleft : ∀ node, reached1 node → ¬ reached2 node →
      (always' node ↔ always1 node))
    (hright : ∀ node, ¬ reached1 node → reached2 node →
      (always' node ↔ always2 node))
    (hreached : ∀ node, always' node → reached1 node ∨ reached2 node) :
    Lists fs done (.concatWith f inits1 inits2)
      (fun node => reached1 node ∨ reached2 node) always' where
  known node hnode := hnode.elim (h1.known node) (h2.known node)
  always_reached := hreached
  listed node name hnode hname := by
    rw [Assoc.find_concatWith]
    rcases hnode with hnode | hnode
    · obtain ⟨entry, hfind⟩ := h1.listed node name hnode hname
      cases hfind2 : inits2.find node.filename with
      | none => exact ⟨entry, by simp [RawAssoc.unionWith, hfind, hfind2]⟩
      | some entry2 =>
        exact ⟨f entry entry2, by simp [RawAssoc.unionWith, hfind, hfind2]⟩
    · obtain ⟨entry, hfind⟩ := h2.listed node name hnode hname
      cases hfind1 : inits1.find node.filename with
      | none => exact ⟨entry, by simp [RawAssoc.unionWith, hfind, hfind1]⟩
      | some entry1 =>
        exact ⟨f entry1 entry, by simp [RawAssoc.unionWith, hfind, hfind1]⟩
  sound filename entry hfind := by
    rw [Assoc.find_concatWith, RawAssoc.unionWith] at hfind
    cases hfind1 : inits1.find filename with
    | none =>
      cases hfind2 : inits2.find filename with
      | none => simp [hfind1, hfind2] at hfind
      | some entry2 =>
        obtain rfl : entry2 = entry := by simpa [hfind1, hfind2] using hfind
        obtain ⟨node, hnode, rfl, hname, hmark⟩ := h2.sound filename entry2 hfind2
        have hnot : ¬ reached1 node := by
          intro hnode1
          obtain ⟨entry1, hfind1'⟩ := h1.listed node _ hnode1 hname
          rw [hfind1] at hfind1'
          cases hfind1'
        exact ⟨node, Or.inr hnode, rfl, hname,
          hmark.trans (hright node hnot hnode).symm⟩
    | some entry1 =>
      obtain ⟨node, hnode, rfl, hname, hmark⟩ := h1.sound filename entry1 hfind1
      cases hfind2 : inits2.find node.filename with
      | none =>
        obtain rfl : entry1 = entry := by simpa [hfind1, hfind2] using hfind
        have hnot : ¬ reached2 node := by
          intro hnode2
          obtain ⟨entry2, hfind2'⟩ := h2.listed node _ hnode2 hname
          rw [hfind2] at hfind2'
          cases hfind2'
        exact ⟨node, Or.inl hnode, rfl, hname,
          hmark.trans (hleft node hnode hnot).symm⟩
      | some entry2 =>
        obtain rfl : f entry1 entry2 = entry := by
          simpa [hfind1, hfind2] using hfind
        obtain ⟨node', hnode', hfile, hname', hmark'⟩ :=
          h2.sound node.filename entry2 hfind2
        obtain rfl := hunique node' (h2.known node' hnode') node
          (h1.known node hnode) hfile
        exact ⟨node', Or.inl hnode, rfl, by rw [hdec, hname'],
          hboth node' entry1 entry2 hnode hnode' hmark hmark'⟩
  ordered := by
    rw [Assoc.keys_concatWith]
    exact h1.ordered.append_filter h2.ordered

theorem maxInit_eq_always {x y : InitRequisite} :
    maxInit x y = .initAlways ↔ x = .initAlways ∨ y = .initAlways := by
  cases x <;> cases y <;> decide

/-- The references of an interface file keep the stronger mark. -/
theorem Lists.merge (hunique : ∀ node ∈ nodesOf done, ∀ node' ∈ nodesOf done,
      node.filename = node'.filename → node = node')
    (h1 : Lists fs done inits1 reached1 always1)
    (h2 : Lists fs done inits2 reached2 always2) : Lists fs done
      (.concatWith (fun d1 d2 => (d2.1, maxInit d1.2 d2.2)) inits1 inits2)
      (fun node => reached1 node ∨ reached2 node)
      (fun node => always1 node ∨ always2 node) := by
  apply h1.concatWith hunique h2
  · intro entry1 entry2
    rfl
  · intro node entry1 entry2 _ _ hmark1 hmark2
    rw [maxInit_eq_always, hmark1, hmark2]
  · intro node _ hnot
    exact or_iff_left fun halways => hnot (h2.always_reached node halways)
  · intro node hnot _
    exact or_iff_right fun halways => hnot (h1.always_reached node halways)
  · intro node halways
    exact halways.imp (h1.always_reached node) (h2.always_reached node)

/-- An include list keeps the mark of the last file that has one. -/
theorem Lists.mergeIncludes (hunique : ∀ node ∈ nodesOf done, ∀ node' ∈ nodesOf done,
      node.filename = node'.filename → node = node')
    (h1 : Lists fs done inits1 reached1 always1)
    (h2 : Lists fs done inits2 reached2 always2) :
    Lists fs done (.concatWith second inits1 inits2)
      (fun node => reached1 node ∨ reached2 node)
      (fun node => always1 node ∧ ¬ reached2 node ∨ always2 node) := by
  apply h1.concatWith hunique h2
  · intro entry1 entry2
    rfl
  · intro node entry1 entry2 _ hreached2 _ hmark2
    rw [second, hmark2]
    exact ⟨Or.inr, fun h => h.resolve_left fun h1 => h1.2 hreached2⟩
  · intro node _ hnot
    constructor
    · rintro (h | h)
      · exact h.1
      · exact absurd (h2.always_reached node h) hnot
    · intro h
      exact Or.inl ⟨h, hnot⟩
  · intro node hnot _
    exact or_iff_right fun h => hnot (h1.always_reached node h.1)
  · intro node halways
    exact halways.imp (fun h => h1.always_reached node h.1)
      (h2.always_reached node)

end Lists

/-- What a reference that was followed marks. -/
def RefAlways (fs : FileSystem T I) (ref : Bool × FileDependencyNode)
    (final : FileDependencyNode) : Prop :=
  (ref.1 = true ∧ Leads fs ref.2 final) ∨ LastPath fs ref.2 final

/-- What an include list marks. -/
def LastOf (fs : FileSystem T I) (nodes : List FileDependencyNode)
    (final : FileDependencyNode) : Prop :=
  ∃ front next back, nodes = front ++ next :: back ∧ LastPath fs next final ∧
    ∀ later ∈ back, ¬ Leads fs later final

theorem LastPath.leads {fs : FileSystem T I} {node final : FileDependencyNode}
    (hlast : LastPath fs node final) : Leads fs node final :=
  hlast.path.leads

theorem lastOf_cons {nodes : List FileDependencyNode} :
    LastOf fs (node :: nodes) final ↔
      (LastPath fs node final ∧ ¬ ∃ later ∈ nodes, Leads fs later final) ∨
        LastOf fs nodes final := by
  constructor
  · rintro ⟨front, next, back, hsplit, hlast, hback⟩
    cases front with
    | nil =>
      obtain ⟨rfl, rfl⟩ := List.cons.inj hsplit
      exact Or.inl ⟨hlast, fun ⟨later, hlater, hleads⟩ => hback later hlater hleads⟩
    | cons head front =>
      obtain ⟨rfl, rfl⟩ := List.cons.inj hsplit
      exact Or.inr ⟨front, next, back, rfl, hlast, hback⟩
  · rintro (⟨hlast, hnone⟩ | ⟨front, next, back, rfl, hlast, hback⟩)
    · exact ⟨[], node, nodes, rfl, hlast,
        fun later hlater hleads => hnone ⟨later, hlater, hleads⟩⟩
    · exact ⟨node :: front, next, back, rfl, hlast, hback⟩

/-- The requisites of a completed file. -/
def ListsEntry (fs : FileSystem T I) (done : Entries T I)
    (result : SmiResult T I) : Prop :=
  Lists fs done result.inits (Leads fs result.node) (LastPath fs result.node)

section Entries

variable {fs : FileSystem T I} {done pre : Entries T I} {loader : Loader}
  {mode : FileLoadMode}

theorem lookupRequire_lists (hall : ∀ filename result, (filename, .smi result) ∈ pre →
      ListsEntry fs done result) {filePathLoc : FileOrPath × Loc}
    {result : SmiResult T I}
    (hlookup : lookupRequire fs pre () loader mode filePathLoc =
      .ok ((), result)) : ListsEntry fs done result := by
  obtain ⟨-, source, found, -, hfind, rfl⟩ := lookupRequire_ok.mp hlookup
  exact hall source.2 found (mem_of_findDone hfind)

theorem evalRequireOptions_lists {options : List (String × Loc)}
    {args result : SmiResult T I} (hargs : ListsEntry fs done args)
    (heval : evalRequireOptions options args = .ok result) :
    result.node = args.node ∧ Lists fs done result.inits (Leads fs args.node)
        (RefAlways fs (asksInit options, args.node)) := by
  simp only [evalRequireOptions, except_bind_ok, except_pure_ok] at heval
  obtain ⟨init, hinit, rfl⟩ := heval
  obtain rfl : init = asksInit options := by simpa using requireInit_eq hinit
  refine ⟨rfl, ?_⟩
  cases hasks : asksInit options with
  | true =>
    refine hargs.markAll.congr (fun _ => Iff.rfl) fun node => ?_
    simp only [RefAlways, true_and]
    exact or_iff_left_of_imp LastPath.leads
  | false =>
    refine hargs.congr (fun _ => Iff.rfl) fun node => ?_
    simp [RefAlways]

/-- A reference of an interface file contributes one edge, if it is followed. -/
theorem evalIrequire_lists (hall : ∀ filename result, (filename, .smi result) ∈ pre →
      ListsEntry fs done result)
    (heval : evalIrequire (lookupRequire fs pre) (lookupUse fs pre) () loader
      mode irequire = .ok ((), some result)) :
    ∃ refs, (∀ requires edges, followed (irequire :: requires)
        (result.edges ++ edges) = refs ++ followed requires edges) ∧
      Lists fs done result.inits (fun node => ∃ ref ∈ refs, Leads fs ref.2 node)
        (fun node => ∃ ref ∈ refs, RefAlways fs ref node) := by
  cases irequire with
  | require path options loc =>
    simp only [evalIrequire, except_bind_ok, except_pure_ok] at heval
    obtain ⟨⟨⟨⟩, loaded⟩, hload, evaluated, hoptions, hresult⟩ := heval
    cases hresult
    obtain ⟨hnode, hlists⟩ :=
      evalRequireOptions_lists (lookupRequire_lists hall hload) hoptions
    refine ⟨[(asksInit options, loaded.node)], ?_, ?_⟩
    · intro requires edges
      rw [hnode]
      rfl
    · simpa using hlists
  | localRequire path options loc =>
    simp only [evalIrequire] at heval
    split at heval
    · simp only [except_bind_ok, except_pure_ok] at heval
      obtain ⟨⟨⟨⟩, loaded⟩, hload, evaluated, hoptions, hresult⟩ := heval
      cases hresult
      obtain ⟨hnode, hlists⟩ :=
        evalRequireOptions_lists (lookupRequire_lists hall hload) hoptions
      refine ⟨[(asksInit options, loaded.node)], ?_, ?_⟩
      · intro requires edges
        rw [hnode]
        rfl
      · simpa using hlists
    · cases heval
  | localUse path loc =>
    simp only [evalIrequire] at heval
    split at heval
    · simp only [except_bind_ok, except_pure_ok] at heval
      obtain ⟨⟨⟨⟩, used⟩, -, hresult⟩ := heval
      cases hresult
      exact ⟨[], fun requires edges => rfl, by simpa using lists_empty fs done⟩
    · cases heval

/-- The kind of edge that a reference has when it is followed. -/
def Irequire.edgeType : Irequire → FileDependencyEdgeType
  | .require _ _ _ => .require
  | .localRequire _ _ _ => .localRequire
  | .localUse _ _ => .localUse

theorem evalIrequire_edgeType
    (heval : evalIrequire (lookupRequire fs pre) (lookupUse fs pre) () loader
      mode irequire = .ok ((), some result)) :
    ∃ node loc, result.edges = [.edge irequire.edgeType node loc] := by
  cases irequire with
  | require path options loc =>
    simp only [evalIrequire, except_bind_ok, except_pure_ok] at heval
    obtain ⟨⟨⟨⟩, loaded⟩, -, evaluated, -, hresult⟩ := heval
    cases hresult
    exact ⟨_, _, rfl⟩
  | localRequire path options loc =>
    simp only [evalIrequire] at heval
    split at heval
    · simp only [except_bind_ok, except_pure_ok] at heval
      obtain ⟨⟨⟨⟩, loaded⟩, -, evaluated, -, hresult⟩ := heval
      cases hresult
      exact ⟨_, _, rfl⟩
    · cases heval
  | localUse path loc =>
    simp only [evalIrequire] at heval
    split at heval
    · simp only [except_bind_ok, except_pure_ok] at heval
      obtain ⟨⟨⟨⟩, used⟩, -, hresult⟩ := heval
      cases hresult
      exact ⟨_, _, rfl⟩
    · cases heval

/-- Whether a reference is followed depends on its kind only. -/
theorem evalIrequire_none {other : Irequire}
    (hnone : evalIrequire (lookupRequire fs pre) (lookupUse fs pre) () loader
      mode irequire = .ok ((), none))
    (hsome : evalIrequire (lookupRequire fs pre) (lookupUse fs pre) () loader
      mode other = .ok ((), some result)) : other.edgeType ≠ irequire.edgeType := by
  intro htype
  cases irequire with
  | require path options loc =>
    simp only [evalIrequire, except_bind_ok, except_pure_ok] at hnone
    obtain ⟨⟨⟨⟩, loaded⟩, -, evaluated, -, hresult⟩ := hnone
    cases hresult
  | localRequire path options loc =>
    cases other with
    | localRequire path' options' loc' =>
      simp only [evalIrequire] at hnone hsome
      split at hnone
      · simp only [except_bind_ok, except_pure_ok] at hnone
        obtain ⟨⟨⟨⟩, loaded⟩, -, evaluated, -, hresult⟩ := hnone
        cases hresult
      · next hfollow =>
          rw [if_neg hfollow] at hsome
          cases hsome
    | require => cases htype
    | localUse => cases htype
  | localUse path loc =>
    cases other with
    | localUse path' loc' =>
      simp only [evalIrequire] at hnone hsome
      split at hnone
      · simp only [except_bind_ok, except_pure_ok] at hnone
        obtain ⟨⟨⟨⟩, used⟩, -, hresult⟩ := hnone
        cases hresult
      · next hfollow =>
          rw [if_neg hfollow] at hsome
          cases hsome
    | require => cases htype
    | localRequire => cases htype

/-- A reference that is not followed has no edge among those of the rest. -/
theorem evalIrequireList_edgeType
    (hnone : evalIrequire (lookupRequire fs pre) (lookupUse fs pre) () loader
      mode irequire = .ok ((), none))
    (heval : evalIrequireList (lookupRequire fs pre) (lookupUse fs pre) ()
      loader mode requires = .ok ((), result)) :
    ∀ edge ∈ result.edges, edge.edgeType ≠ irequire.edgeType := by
  induction requires generalizing result with
  | nil =>
    cases heval
    simp [RequiresResult.empty]
  | cons other requires ih =>
    simp only [evalIrequireList, except_bind_ok] at heval
    obtain ⟨⟨⟨⟩, first⟩, hfirst, ⟨⟨⟩, rest⟩, hrest, hresult⟩ := heval
    cases first with
    | none =>
      cases hresult
      exact ih hrest
    | some first =>
      cases hresult
      intro edge hedge
      rcases List.mem_append.mp hedge with hedge | hedge
      · obtain ⟨node, loc, hedges⟩ := evalIrequire_edgeType hfirst
        rw [hedges, List.mem_singleton] at hedge
        subst hedge
        exact evalIrequire_none hnone hfirst
      · exact ih hrest edge hedge

theorem followed_skip (hedges : ∀ edge ∈ edges, edge.edgeType ≠ irequire.edgeType) :
    followed (irequire :: requires) edges = followed requires edges := by
  apply followed.eq_4
  · rintro path options loc node loc' rest rfl rfl
    exact hedges _ List.mem_cons_self rfl
  · rintro path options loc node loc' rest rfl rfl
    exact hedges _ List.mem_cons_self rfl
  · rintro path loc node loc' rest rfl rfl
    exact hedges _ List.mem_cons_self rfl

theorem evalIrequireList_lists (hunique : ∀ node ∈ nodesOf done, ∀ node' ∈ nodesOf done,
      node.filename = node'.filename → node = node')
    (hall : ∀ filename result, (filename, .smi result) ∈ pre →
      ListsEntry fs done result)
    (heval : evalIrequireList (lookupRequire fs pre) (lookupUse fs pre) ()
      loader mode requires = .ok ((), result)) : Lists fs done result.inits
      (fun node => ∃ ref ∈ followed requires result.edges, Leads fs ref.2 node)
      (fun node => ∃ ref ∈ followed requires result.edges,
        RefAlways fs ref node) := by
  induction requires generalizing result with
  | nil =>
    cases heval
    simpa [RequiresResult.empty, followed] using lists_empty fs done
  | cons irequire requires ih =>
    simp only [evalIrequireList, except_bind_ok] at heval
    obtain ⟨⟨⟨⟩, first⟩, hfirst, ⟨⟨⟩, rest⟩, hrest, hresult⟩ := heval
    cases first with
    | none =>
      cases hresult
      rw [followed_skip (evalIrequireList_edgeType hfirst hrest)]
      exact ih hrest
    | some first =>
      cases hresult
      obtain ⟨refs, hrefs, hlists⟩ := evalIrequire_lists hall hfirst
      have hmerged := hlists.merge hunique (ih hrest)
      simp only [RequiresResult.merge, hrefs, List.mem_append, or_and_right,
        exists_or]
      exact hmerged

theorem loadRequireList_lists (hunique : ∀ node ∈ nodesOf done, ∀ node' ∈ nodesOf done,
      node.filename = node'.filename → node = node')
    (hall : ∀ filename result, (filename, .smi result) ∈ pre →
      ListsEntry fs done result) {pathLocs : List (FileOrPath × Loc)}
    {result : IncludesResult T I}
    (heval : loadRequireList (lookupRequire fs pre) () loader mode pathLocs =
      .ok ((), result)) :
    (includeEdges result.nodes result.locs).map FileDependencyEdge.node =
        result.nodes ∧ Lists fs done result.inits
        (fun node => ∃ next ∈ result.nodes, Leads fs next node)
        (LastOf fs result.nodes) := by
  induction pathLocs generalizing result with
  | nil =>
    cases heval
    refine ⟨rfl, (lists_empty fs done).congr (by simp) fun node => ?_⟩
    simp [LastOf]
  | cons pathLoc pathLocs ih =>
    simp only [loadRequireList, except_bind_ok, except_pure_ok] at heval
    obtain ⟨⟨⟨⟩, first⟩, hfirst, ⟨⟨⟩, rest⟩, hrest, hresult⟩ := heval
    cases hresult
    obtain ⟨hnodes, hlists⟩ := ih hrest
    refine ⟨?_, ?_⟩
    · rw [includeEdges, List.zip_cons_cons, List.map_cons, List.map_cons]
      exact congrArg (first.node :: ·) hnodes
    · have hmerged := (lookupRequire_lists hall hfirst).mergeIncludes hunique hlists
      apply hmerged.congr
      · intro node
        rw [List.exists_mem_cons_iff]
      · intro node
        exact lastOf_cons

end Entries

theorem lastPath_of_interface (htype : node.fileType ≠ .includes) :
    LastPath fs node final ↔ ∃ ref ∈ initRefs fs node, RefAlways fs ref final := by
  constructor
  · intro hlast
    cases hlast with
    | init ref rest => exact ⟨_, ref, Or.inl ⟨rfl, rest⟩⟩
    | require type ref rest => exact ⟨_, ref, Or.inr rest⟩
    | lastInclude type ref last rest => exact absurd type htype
  · rintro ⟨⟨init, next⟩, href, ⟨rfl, hleads⟩ | hlast⟩
    · exact .init href hleads
    · exact .require htype href hlast

theorem lastPath_of_includes {nodes : List FileDependencyNode}
    (htype : node.fileType = .includes)
    (hrefs : initRefs fs node = nodes.map fun next => (false, next)) :
    LastPath fs node final ↔ LastOf fs nodes final := by
  constructor
  · intro hlast
    cases hlast with
    | init ref rest => simp [hrefs] at ref
    | require type ref rest => exact absurd htype type
    | lastInclude type ref last rest =>
      rw [hrefs] at ref
      obtain ⟨front, back, rfl, rfl, hback⟩ := List.map_eq_append_iff.mp ref
      obtain ⟨next, back, rfl, hnext, rfl⟩ := List.map_eq_cons_iff.mp hback
      cases hnext
      refine ⟨front, _, back, rfl, rest, fun later hlater => ?_⟩
      exact last (false, later) (List.mem_map_of_mem hlater)
  · rintro ⟨front, next, back, rfl, hlast, hback⟩
    have hsplit : initRefs fs node = (front.map fun next => (false, next)) ++
        (false, next) :: back.map fun next => (false, next) := by simpa using hrefs
    refine .lastInclude htype hsplit ?_ hlast
    intro later hlater
    obtain ⟨node, hnode, rfl⟩ := List.mem_map.mp hlater
    exact hback node hnode

/-- An interface file adds itself behind the interfaces that it requires. -/
theorem Lists.self {done : Entries T I}
    {inits : Assoc Filename (InterfaceDec I × InitRequisite)}
    {always : FileDependencyNode → Prop} {dec : InterfaceDec I}
    (hunique : ∀ node ∈ nodesOf done, ∀ node' ∈ nodesOf done,
      node.filename = node'.filename → node = node')
    (h : Lists fs done inits (Requires fs node) always)
    (hnode : node ∈ nodesOf done) (hname : nodeName node = some dec.interfaceName)
    (hacyclic : ¬ Requires fs node node) :
    Lists fs done (inits.append node.filename (dec, .initIfneeded))
      (Leads fs node) always := by
  have hnew : inits.find node.filename = none := by
    cases hfind : inits.find node.filename with
    | none => rfl
    | some entry =>
      obtain ⟨node', hnode', hfile, -, -⟩ := h.sound _ entry hfind
      obtain rfl := hunique node' (h.known node' hnode') node hnode hfile
      exact absurd hnode' hacyclic
  have hkeys : (inits.append node.filename (dec, .initIfneeded)).raw.keys.toList =
      inits.raw.keys.toList ++ [node.filename] := by
    rw [← Assoc.entries_keys, ← Assoc.entries_keys,
      Assoc.entries_append_new inits _ hnew, List.map_append]
    rfl
  constructor
  · intro final hfinal
    rcases leads_iff.mp hfinal with rfl | hfinal
    · exact hnode
    · exact h.known final hfinal
  · intro final hfinal
    exact leads_iff.mpr (Or.inr (h.always_reached final hfinal))
  · intro final name hfinal hfinalName
    rw [Assoc.find_append]
    rcases leads_iff.mp hfinal with rfl | hfinal
    · exact ⟨_, if_pos rfl⟩
    · have hne : final.filename ≠ node.filename := by
        intro hfile
        obtain rfl := hunique final (h.known final hfinal) node hnode hfile
        exact hacyclic hfinal
      rw [if_neg hne]
      exact h.listed final name hfinal hfinalName
  · intro filename entry hfind
    rw [Assoc.find_append] at hfind
    split at hfind
    · next hfile =>
        cases hfind
        refine ⟨node, Leads.refl fs node, hfile.symm, hname, ?_⟩
        constructor
        · intro hmark
          cases hmark
        · intro halways
          exact absurd (h.always_reached node halways) hacyclic
    · obtain ⟨final, hfinal, hfile, hfinalName, hmark⟩ := h.sound filename entry hfind
      exact ⟨final, leads_iff.mpr (Or.inr hfinal), hfile, hfinalName, hmark⟩
  · rw [hkeys]
    apply h.ordered.snoc
    rintro y ⟨node', hnode', hfile, other, name, hrequires, hother, rfl⟩
    obtain rfl := hunique node' hnode' node hnode hfile
    obtain ⟨entry, hfind⟩ := h.listed other name hrequires hother
    rw [← Assoc.entries_keys]
    exact List.mem_map.mpr
      ⟨(other.filename, entry), (Assoc.mem_entries_iff _ _ _).mpr hfind, rfl⟩

/-- A file without an interface is not listed itself. -/
theorem Lists.unnamed {done : Entries T I}
    {inits : Assoc Filename (InterfaceDec I × InitRequisite)}
    {always : FileDependencyNode → Prop}
    (h : Lists fs done inits (Requires fs node) always)
    (hnode : node ∈ nodesOf done) (hname : nodeName node = none) :
    Lists fs done inits (Leads fs node) always where
  known final hfinal := by
    rcases leads_iff.mp hfinal with rfl | hfinal
    · exact hnode
    · exact h.known final hfinal
  always_reached final hfinal := leads_iff.mpr (Or.inr (h.always_reached final hfinal))
  listed final name hfinal hfinalName := by
    rcases leads_iff.mp hfinal with rfl | hfinal
    · rw [hname] at hfinalName
      cases hfinalName
    · exact h.listed final name hfinal hfinalName
  sound filename entry hfind := by
    obtain ⟨final, hfinal, hrest⟩ := h.sound filename entry hfind
    exact ⟨final, leads_iff.mpr (Or.inr hfinal), hrest⟩
  ordered := h.ordered

section Closed

variable {fs : FileSystem T I} {loadPath : List Source}
  {P : FileLoadMode → Prop} {done : Entries T I}

theorem Closed.leads_mem (hclosed : Closed fs loadPath P done)
    (hnodup : (done.map Prod.fst).Nodup)
    (hnode : node ∈ nodesOf done) (hleads : Leads fs node final) :
    final ∈ nodesOf done := by
  rcases leads_iff.mp hleads with rfl | hrequires
  · exact hnode
  · exact (hclosed.refersTo_trans hnodup hnode hrequires.refersTo).1

theorem Closed.not_requires_self (hclosed : Closed fs loadPath P done)
    (hnodup : (done.map Prod.fst).Nodup)
    (hnode : node ∈ nodesOf done) : ¬ Requires fs node node := by
  intro hrequires
  exact Nat.lt_irrefl _
    (hclosed.refersTo_trans hnodup hnode hrequires.refersTo).2

/-- By induction on the order of completion. -/
theorem Closed.listsEntry (hclosed : Closed fs loadPath P done)
    (hnodup : (done.map Prod.fst).Nodup) {pre : Entries T I} (hpre : pre <+: done) :
    ∀ filename result, (filename, .smi result) ∈ pre →
      ListsEntry fs done result := by
  have hunique : ∀ node ∈ nodesOf done, ∀ node' ∈ nodesOf done,
      node.filename = node'.filename → node = node' :=
    fun node hnode node' hnode' => hclosed.node_unique hnodup hnode hnode'
  induction pre using List.reverseRecOn with
  | nil =>
    intro filename result hmem
    cases hmem
  | append_singleton pre last ih =>
    have hall := ih ((List.prefix_append pre [last]).trans hpre)
    intro filename result hmem
    rcases List.mem_append.mp hmem with hmem | hmem
    · exact hall filename result hmem
    · rw [List.mem_singleton] at hmem
      subst hmem
      obtain ⟨post, hsplit⟩ := hpre
      have hentry := hclosed pre filename (.smi result) post (by simp [← hsplit])
      have hnode : result.node ∈ nodesOf done := by
        refine mem_nodesOf.mpr ⟨filename, .smi result, ?_, rfl⟩
        simp [← hsplit]
      obtain ⟨source, mode, rfl, -, hcase⟩ := hentry.smi_inv
      rcases hcase with ⟨includes, topdecs, evaluated, hparse, heval, hresult⟩ |
        ⟨requires, provide, evaluated, id, hparse, heval, hresult⟩
      · obtain ⟨hnodes, hlists⟩ := loadRequireList_lists hunique hall heval
        have hrefs : initRefs fs result.node =
            evaluated.nodes.map fun next => (false, next) := by
          rw [hresult, initRefs]
          simp only [FileDependencyNode.filename, includesResult,
            FileDependencyNode.source, FileDependencyNode.edges, hparse]
          have hmap := congrArg (List.map fun next => (false, next)) hnodes
          rwa [List.map_map] at hmap
        have htype : result.node.fileType = .includes := by
          rw [hresult]
          rfl
        have hname : nodeName result.node = none := by
          rw [nodeName, htype]
        have hrequires : Lists fs done result.inits (Requires fs result.node)
            (LastPath fs result.node) := by
          rw [hresult]
          refine hlists.congr (fun final => ?_) fun final => ?_
          · rw [← hresult, Requires, hrefs]
            simp
          · rw [← hresult]
            exact lastPath_of_includes htype hrefs
        exact hrequires.unnamed hnode hname
      · have hlists := evalIrequireList_lists hunique hall heval
        have hrefs : initRefs fs result.node = followed requires evaluated.edges := by
          rw [hresult, initRefs]
          simp only [FileDependencyNode.filename, interfaceResult,
            FileDependencyNode.source, FileDependencyNode.edges, hparse]
        have htype : result.node.fileType ≠ .includes := by
          rw [hresult]
          exact FileType.noConfusion
        have hrequires : Lists fs done evaluated.inits (Requires fs result.node)
            (LastPath fs result.node) := by
          refine hlists.congr (fun final => ?_) fun final => ?_
          · rw [Requires, hrefs]
          · rw [lastPath_of_interface htype, hrefs]
        have hname : nodeName result.node =
            some (interfaceDec fs id source provide evaluated).interfaceName := by
          rw [hresult]
          rfl
        have hself := hrequires.self hunique hnode hname
          (hclosed.not_requires_self hnodup hnode)
        rw [ListsEntry, hresult]
        rw [hresult] at hself
        exact hself

end Closed

/-! ### The requisites of a compilation unit -/

/-- Every interface to which a traversed path with `init` leads is reached by
one that leaves the include files before the `init` by the last include that
leads to the interface. -/
def LastIncludesInit (fs : FileSystem T I) (node : FileDependencyNode) : Prop :=
  ∀ final name, nodeName final = some name → Path fs node final true →
    LastPath fs node final

theorem nodeName_filename {name : InterfaceName}
    (hname : nodeName node = some name) : node.filename = name.source.2 := by
  rw [nodeName] at hname
  split at hname
  · cases hname
    rfl
  · cases hname

section Requisites

variable {fs : FileSystem T I} {loadPath : List Source}
  {P : FileLoadMode → Prop} {done : Entries T I}
  {inits : Assoc Filename (InterfaceDec I × InitRequisite)}
  {node : FileDependencyNode}

theorem mem_requisites {mark : InitRequisite} {name : InterfaceName} :
    (mark, name) ∈ inits.collect decInitToInitName ↔
      ∃ filename entry, inits.find filename = some entry ∧ entry.2 = mark ∧
        entry.1.interfaceName = name := by
  simp only [Assoc.collect, Assoc.listItems, List.map_map, List.mem_map,
    Function.comp, decInitToInitName, Prod.mk.injEq]
  constructor
  · rintro ⟨⟨filename, entry⟩, hentry, hmark, hname⟩
    exact ⟨filename, entry, (Assoc.mem_entries_iff _ _ _).mp hentry, hmark, hname⟩
  · rintro ⟨filename, entry, hfind, hmark, hname⟩
    exact ⟨(filename, entry), (Assoc.mem_entries_iff _ _ _).mpr hfind, hmark, hname⟩

/-- The list of an interface file is right but for the marks, and these are
right exactly when the last includes lead to the references with `init`. -/
theorem Lists.requisitesOk_iff
    (hclosed : Closed fs loadPath P done) (hnodup : (done.map Prod.fst).Nodup)
    (hnode : node ∈ nodesOf done)
    (h : Lists fs done inits (Requires fs node) (LastPath fs node)) :
    InitRequisitesOk fs node (inits.collect decInitToInitName) ↔
      LastIncludesInit fs node := by
  have hmem : ∀ final, Leads fs node final → final ∈ nodesOf done :=
    fun final hfinal => hclosed.leads_mem hnodup hnode hfinal
  have hrequires : ∀ final, Requires fs node final → Leads fs node final :=
    fun final hfinal => leads_iff.mpr (Or.inr hfinal)
  have hname : ∀ final final' name, Leads fs node final → Leads fs node final' →
      nodeName final = some name → nodeName final' = some name → final = final' := by
    intro final final' name hfinal hfinal' hname hname'
    apply hclosed.node_unique hnodup (hmem final hfinal) (hmem final' hfinal')
    rw [nodeName_filename hname, nodeName_filename hname']
  have hentry : ∀ filename entry, inits.find filename = some entry →
      entry.1.interfaceName.source.2 = filename := by
    intro filename entry hfind
    obtain ⟨final, -, hfile, hfinal, -⟩ := h.sound filename entry hfind
    rw [← nodeName_filename hfinal, hfile]
  have hpath : ∀ final, Path fs node final true → Requires fs node final := by
    intro final hpath
    obtain ⟨ref, href, hcase⟩ := Path.true_iff.mp hpath
    exact ⟨ref, href, hcase.elim And.right Path.leads⟩
  constructor
  · intro hok final name hfinal hinit
    obtain ⟨mark, hmark⟩ := (hok.required name).mpr ⟨final, hpath final hinit, hfinal⟩
    obtain ⟨filename, entry, hfind, rfl, hentryName⟩ := mem_requisites.mp hmark
    obtain ⟨final', hfinal', -, hname', hlast⟩ := h.sound filename entry hfind
    rw [hentryName] at hname'
    obtain rfl := hname final final' name (hrequires _ (hpath final hinit))
      (hrequires _ hfinal') hfinal hname'
    exact hlast.mp ((hok.marks _ name hmark).mpr ⟨final, hfinal, hinit⟩)
  · intro hlast
    constructor
    · have hkeys : ((inits.collect decInitToInitName).map
          fun requisite => requisite.2.source.2) = inits.entries.map Prod.fst := by
        simp only [Assoc.collect, Assoc.listItems, List.map_map]
        apply List.map_congr_left
        rintro ⟨filename, entry⟩ hmem
        exact hentry filename entry ((Assoc.mem_entries_iff _ _ _).mp hmem)
      rw [hkeys]
      exact inits.entries_keys_nodup
    · intro name
      constructor
      · rintro ⟨mark, hmark⟩
        obtain ⟨filename, entry, hfind, -, rfl⟩ := mem_requisites.mp hmark
        obtain ⟨final, hfinal, -, hfinalName, -⟩ := h.sound filename entry hfind
        exact ⟨final, hfinal, hfinalName⟩
      · rintro ⟨final, hfinal, hfinalName⟩
        obtain ⟨entry, hfind⟩ := h.listed final name hfinal hfinalName
        obtain ⟨final', hfinal', hfile, hname', -⟩ := h.sound _ entry hfind
        obtain rfl := hclosed.node_unique hnodup (h.known _ hfinal')
          (h.known _ hfinal) hfile
        rw [hfinalName] at hname'
        exact ⟨entry.2, mem_requisites.mpr
          ⟨_, entry, hfind, rfl, (Option.some.inj hname').symm⟩⟩
    · intro pre requisite post hsplit final hfinal hfinalName other name
        hother hotherName
      simp only [Assoc.collect, Assoc.listItems, List.map_map] at hsplit
      obtain ⟨front, rest, hentries, rfl, hrest⟩ := List.map_eq_append_iff.mp hsplit
      obtain ⟨⟨filename, entry⟩, back, rfl, rfl, -⟩ := List.map_eq_cons_iff.mp hrest
      have hfind : inits.find filename = some entry := by
        rw [← Assoc.mem_entries_iff, hentries]
        exact List.mem_append_right _ List.mem_cons_self
      have hkeys : inits.raw.keys.toList =
          front.map Prod.fst ++ filename :: back.map Prod.fst := by
        rw [← Assoc.entries_keys, hentries, List.map_append, List.map_cons]
      have hfile : final.filename = filename := by
        rw [nodeName_filename hfinalName, ← hentry filename entry hfind]
        rfl
      have hneeds : Needs fs done filename other.filename :=
        ⟨final, hmem final hfinal, hfile, other, name, hother, hotherName, rfl⟩
      obtain ⟨⟨filename', entry'⟩, hin, hfile'⟩ := List.mem_map.mp
        (h.ordered _ filename _ hkeys _ hneeds)
      have hfind' : inits.find filename' = some entry' := by
        rw [← Assoc.mem_entries_iff, hentries]
        exact List.mem_append_left _ hin
      obtain ⟨other', hother', hfile'', hname', -⟩ := h.sound filename' entry' hfind'
      have hotherMem : other ∈ nodesOf done :=
        hclosed.leads_mem hnodup (hmem final hfinal) (leads_iff.mpr (Or.inr hother))
      obtain rfl := hclosed.node_unique hnodup (h.known _ hother') hotherMem
        (hfile''.trans hfile')
      rw [hotherName] at hname'
      refine ⟨entry'.2, List.mem_map.mpr ⟨(filename', entry'), hin, ?_⟩⟩
      rw [Option.some.inj hname']
      rfl
    · intro mark name hmark
      obtain ⟨filename, entry, hfind, rfl, rfl⟩ := mem_requisites.mp hmark
      obtain ⟨final, hfinal, -, hfinalName, hentryMark⟩ := h.sound filename entry hfind
      rw [hentryMark]
      constructor
      · intro hfinalLast
        exact ⟨final, hfinalName, hfinalLast.path⟩
      · rintro ⟨final', hfinalName', hinit⟩
        obtain rfl := hname final' final _ hinit.leads (hrequires _ hfinal)
          hfinalName' hfinalName
        exact hlast final' _ hfinalName' hinit

end Requisites

theorem loadProvideInterface_prelude {fuel : Nat}
    {state state' : LoadState T I} {loader : Loader} {mode : FileLoadMode}
    {filePathLoc : FileOrPath × Loc} {provided : ProvideResult T I}
    (hload : loadProvideInterface fs fuel state loader mode (some filePathLoc) =
      .ok (state', provided)) : ∃ result dec top,
      loadRequire fs fuel state loader mode filePathLoc = .ok (state', result) ∧
      result.dec = some (dec, top) ∧ provided.node = some result.node ∧
      provided.prelude.initRequisites =
        top.initRequisites.collect decInitToInitName := by
  simp only [loadProvideInterface, except_bind_ok] at hload
  obtain ⟨⟨state₁, result⟩, hrequire, hload⟩ := hload
  split at hload
  · cases hload
  · next dec top hdec =>
      simp only [except_bind_ok, except_pure_ok, Prod.mk.injEq] at hload
      obtain ⟨others, -, ⟨⟩, -, rfl, rfl⟩ := hload
      exact ⟨result, dec, top, hrequire, hdec, rfl, rfl⟩

/-- The `_use`s of a source file have no edge to a provided interface. -/
theorem evalTopList_edgeType {σ : Type} {use : UseFn σ T} {state state' : σ}
    {loader : Loader} {allow : AllowUse} {tops : List (Top T)}
    {result : TopsResult T}
    (heval : evalTopList use state loader allow tops = .ok (state', result)) :
    ∀ edge ∈ result.edges, edge.edgeType = .use := by
  induction tops generalizing state result with
  | nil =>
    cases heval
    simp
  | cons top tops ih =>
    simp only [evalTopList, except_bind_ok, except_pure_ok] at heval
    obtain ⟨⟨state₁, first⟩, hfirst, ⟨state₂, rest⟩, hrest, hresult⟩ := heval
    cases hresult
    intro edge hedge
    rcases List.mem_append.mp hedge with hedge | hedge
    · cases top with
      | topdec topdecs =>
        cases hfirst
        simp at hedge
      | use path loc =>
        simp only [evalTop, except_bind_ok, except_pure_ok] at hfirst
        obtain ⟨⟨state₃, used⟩, -, ⟨⟩, -, hfirst⟩ := hfirst
        cases hfirst
        rw [Option.toList_some, List.mem_singleton] at hedge
        subst hedge
        rfl
    · exact ih hrest edge hedge

theorem load_prelude {fuel nextId : Nat}
    {options : LoadOptions} {unit : SmlUnit T} {result : LoadResult T I}
    (hload : load fs fuel nextId options unit = .ok result) :
    ∃ interfaceFile base state provided,
      loadProvideInterface fs fuel (initialState base nextId)
        (rootLoader options) options.loadMode interfaceFile =
          .ok (state, provided) ∧ result.prelude = provided.prelude ∧
      ∀ node loc, .edge .provide node loc ∈ result.dependency.root.edges →
        provided.node = some node := by
  simp only [load, except_bind_ok, except_pure_ok] at hload
  obtain ⟨interfaceFile, -, base, -, ⟨state, provided⟩, hprovide, state₂, -,
    ⟨state₃, tops⟩, htops, allNodes, -, rfl⟩ := hload
  refine ⟨interfaceFile, base, state, provided, hprovide, rfl, ?_⟩
  intro node loc hedge
  rcases List.mem_append.mp hedge with hedge | hedge
  · cases hnode : provided.node with
    | none => simp [hnode] at hedge
    | some node' =>
      simp only [hnode, Option.map_some, Option.toList_some, List.mem_singleton,
        FileDependencyEdge.edge.injEq] at hedge
      rw [hedge.2.1]
  · cases evalTopList_edgeType htops _ hedge

/-- The requisites of a unit list the interfaces that it requires once and in
order; the marks are right if and only if the last includes of include files
lead to the references with `init`. -/
theorem initRequisites_iff (fs : FileSystem T I) (fuel nextId : Nat)
    (options : LoadOptions) (unit : SmlUnit T) (result : LoadResult T I)
    (hload : load fs fuel nextId options unit = .ok result)
    (node : FileDependencyNode) (loc : Loc)
    (hnode : .edge .provide node loc ∈ result.dependency.root.edges) :
    InitRequisitesOk fs node result.prelude.initRequisites ↔
      LastIncludesInit fs node := by
  obtain ⟨interfaceFile, base, state, provided, hprovide, hprelude, hedges⟩ :=
    load_prelude hload
  have hprovided := hedges node loc hnode
  cases interfaceFile with
  | none =>
    cases hprovide
    cases hprovided
  | some filePathLoc =>
    have hP : ∀ mode : FileLoadMode, True → True := fun _ h => h
    obtain ⟨loaded, dec, top, hrequire, hdec, hloaded, hrequisites⟩ :=
      loadProvideInterface_prelude hprovide
    have hinv : Invariant fs (rootLoader options).loadPath (fun _ => True)
        (initialState base nextId : LoadState T I) :=
      invariant_of_done_nil (initialState_done base nextId)
    have hstep := (loadRequire_ok fs _ _ hP fuel _ _ _ _ _ _ hrequire rfl trivial
      hinv).1
    obtain ⟨state₁, source, requires, provide, evaluated, -, -, hparse, -, heval,
      rfl, hdone, -, -⟩ := loadRequire_last hP hrequire trivial hinv
        (initialState_done base nextId) (by simp [hdec])
    have hclosed := hstep.inv.closed
    have hnodup := state.done_keys_nodup
    rw [hprovided] at hloaded
    obtain rfl := Option.some.inj hloaded
    have hmem : (interfaceResult fs state₁.nextId source filePathLoc.2 provide
        evaluated).node ∈ nodesOf state.done := by
      rw [hdone]
      exact mem_nodesOf.mpr
        ⟨source.2, _, List.mem_append_right _ List.mem_cons_self, rfl⟩
    have hpre : state₁.done <+: state.done := hdone ▸ List.prefix_append _ _
    have hlists := evalIrequireList_lists
      (fun node hnode node' hnode' => hclosed.node_unique hnodup hnode hnode')
      (hclosed.listsEntry hnodup hpre) heval
    have hrefs : initRefs fs (interfaceResult fs state₁.nextId source
        filePathLoc.2 provide evaluated).node =
          followed requires evaluated.edges := by
      rw [initRefs]
      simp only [FileDependencyNode.filename, interfaceResult,
        FileDependencyNode.source, FileDependencyNode.edges, hparse]
    have hlists' : Lists fs state.done evaluated.inits
        (Requires fs (interfaceResult fs state₁.nextId source filePathLoc.2
          provide evaluated).node)
        (LastPath fs (interfaceResult fs state₁.nextId source filePathLoc.2
          provide evaluated).node) := by
      refine hlists.congr (fun final => ?_) fun final => ?_
      · rw [Requires, hrefs]
      · rw [lastPath_of_interface FileType.noConfusion, hrefs]
    cases hdec
    rw [hprelude, hrequisites]
    exact hlists'.requisitesOk_iff hclosed hnodup hmem

/-- `a.smi` requires `c.smi` twice through the include file `x.smi`: by `b.smi`,
with `init`, and by the last include. -/
def includedInitFiles : FileSystem String String :=
  .ofFiles
    [(⟨true, ["w", "a.smi"]⟩, .interface [.require ["x.smi"] [] (some 1)] ["a"]),
      (⟨true, ["w", "x.smi"]⟩, .includes
        [(["b.smi"], some 2), (["c.smi"], some 3)] ["infix"]),
      (⟨true, ["w", "b.smi"]⟩, .interface
        [.require ["c.smi"] [("init", some 4)] (some 4)] ["b"]),
      (⟨true, ["w", "c.smi"]⟩, .interface [] ["c"])]
    [] []

def includedInitOptions : LoadOptions :=
  ⟨some ⟨true, ["w", "a.sml"]⟩, [], .compile, id⟩

/-- The check holds of the only interface that is provided. -/
def providesOnly (check : FileDependencyNode → Bool) :
    List FileDependencyEdge → Bool
  | [.edge .provide node _] => check node
  | _ => false

theorem providesOnly_eq_true {check : FileDependencyNode → Bool}
    (h : providesOnly check edges = true) :
    ∃ node loc, edges = [.edge .provide node loc] ∧ check node = true := by
  fun_cases providesOnly check edges with
  | case1 node loc => exact ⟨node, loc, rfl, h⟩
  | case2 => simp_all [providesOnly]

/-- The interface that is provided comes through an include file. -/
theorem initRequisites_iff_included : ∃ result node loc,
    load includedInitFiles 9 0 includedInitOptions ⟨.nointerface, [], none⟩ =
      .ok result ∧
    .edge .provide node loc ∈ result.dependency.root.edges ∧
    (InitRequisitesOk includedInitFiles node result.prelude.initRequisites ↔
      LastIncludesInit includedInitFiles node) := by
  have heval : okAnd (load includedInitFiles 9 0 includedInitOptions
      ⟨.nointerface, [], none⟩) (fun result =>
        providesOnly (fun _ => true) result.dependency.root.edges) = true := by
    decide +kernel
  obtain ⟨result, hresult, hedges⟩ := okAnd_iff.mp heval
  obtain ⟨node, loc, hroot, -⟩ := providesOnly_eq_true hedges
  have hnode : .edge .provide node loc ∈ result.dependency.root.edges := by
    rw [hroot]
    exact List.mem_cons_self
  exact ⟨result, node, loc, hresult, hnode,
    initRequisites_iff _ _ _ _ _ result hresult node loc hnode⟩

/-- The mark of `c.smi` by `b.smi` is lost when the include lists are merged. -/
theorem initRequisites_unmarked : ¬ ∀ (fs : FileSystem String String)
    (fuel nextId : Nat) (options : LoadOptions) (unit : SmlUnit String)
    (result : LoadResult String String),
    load fs fuel nextId options unit = .ok result →
    ∀ node loc, .edge .provide node loc ∈ result.dependency.root.edges →
      InitRequisitesOk fs node result.prelude.initRequisites := by
  intro hall
  have heval : okAnd (load includedInitFiles 9 0 includedInitOptions
      ⟨.nointerface, [], none⟩) (fun result =>
        providesOnly (fun a => (initRefs includedInitFiles a).any fun x =>
          (initRefs includedInitFiles x.2).any fun b =>
            (initRefs includedInitFiles b.2).any fun c =>
              c.1 && result.prelude.initRequisites.any fun requisite =>
                requisite.1 = .initIfneeded ∧ nodeName c.2 = some requisite.2)
          result.dependency.root.edges) = true := by decide +kernel
  obtain ⟨result, hresult, hedges⟩ := okAnd_iff.mp heval
  obtain ⟨a, loc, hroot, hmarked⟩ := providesOnly_eq_true hedges
  have hok := hall _ _ _ _ _ result hresult a loc
    (by rw [hroot]; exact List.mem_cons_self)
  simp only [List.any_eq_true, Bool.and_eq_true, decide_eq_true_eq] at hmarked
  obtain ⟨x, hx, b, hb, c, hc, hinit, ⟨mark, name⟩, hmark, rfl, hname⟩ := hmarked
  have hpath : Path includedInitFiles a c.2 true := by
    refine Path.true_iff.mpr ⟨x, hx, Or.inr ?_⟩
    refine Path.true_iff.mpr ⟨b, hb, Or.inr ?_⟩
    exact Path.true_iff.mpr ⟨c, hc, Or.inl ⟨hinit, Leads.refl _ _⟩⟩
  cases (hok.marks _ name hmark).mpr ⟨c.2, hname, hpath⟩

end LoadFile

end SmlSharp
