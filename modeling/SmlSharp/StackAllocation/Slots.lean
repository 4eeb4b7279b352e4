/-
The allocation of slots to the variables that are live across a collection.
-/
import SmlSharp.Lib.Except
import SmlSharp.Lib.KeyedList
import SmlSharp.Lib.SortedMap
import SmlSharp.StackAllocation.Interference

namespace SmlSharp

namespace StackAllocation

/-- `SlotSet`: slots in ascending order. -/
abbrev SlotSet := KeyedSet (fun slot : Int => slot)

/-- New slots, which are numbered in sequence from the next one. -/
def SlotSet.generate (next : Int) (numItems : Nat) : SlotSet where
  items := (List.range numItems).map fun i : Nat => next + (i : Int)
  sorted := by
    rw [List.pairwise_map]
    apply List.pairwise_lt_range.imp
    intro i j hij
    omega

def SlotSet.choose (slots : SlotSet) : Except String Int :=
  match slots.items with
  | [] => .error "SlotSet.choose"
  | h :: _ => .ok h

def addInterferences (interferences : SortedMap Int VarSet) (vars : VarSet) :
    SortedMap Int VarSet :=
  vars.items.foldl (fun z var => match z.find var.id with
    | none => z.insert var.id vars
    | some v => z.insert var.id (v.union vars)) interferences

def shrinkInterference : List VarSet → List VarSet
  | [] => []
  | [x] => [x]
  | vars1 :: vars2 :: t2 =>
    if vars1.isSubsetOf vars2 then shrinkInterference (vars2 :: t2)
    else if vars2.isSubsetOf vars1 then shrinkInterference (vars1 :: t2)
    else vars1 :: shrinkInterference (vars2 :: t2)
termination_by interferences => interferences.length

/-- The references of the variables, of which `alloc` lists those that have
one. -/
def varsToSlots : List Int → List VarInfo → Except String (List Int)
  | [], [] => .ok []
  | [], _ :: _ => .error "varsToSlots"
  | _ :: _, [] => .ok []
  | id1 :: alloc, h :: slots =>
    if id1 = h.id then do
      let refs ← varsToSlots alloc slots
      pure (id1 :: refs)
    else if h.id < id1 then .error "varsToSlots"
    else varsToSlots alloc (h :: slots)

/-- The function that `allocSlot` maps over the variables, in ascending order;
`slots` is what their references hold. -/
def assignSlots (refs : List Int) (candidates : SlotSet) :
    List (Int × VarSet) → (Int → Option Int) → Except String (List (Int × Int))
  | [], _ => pure []
  | (var, adjVars) :: alloc, slots => do
      let adj ← varsToSlots refs adjVars.items
      let adjset : SlotSet := KeyedSet.fromList (adj.filterMap slots)
      let unalloced := candidates.setMinus adjset
      let id ← SlotSet.choose unalloced
      let rest ← assignSlots refs candidates alloc (Function.update slots var (some id))
      pure ((var, id) :: rest)

/-- The slots of the variables, in the order of their ids; `next` is the next
slot to be generated. -/
def allocSlot (next : Int) (i : Interference) : Except String (List (Int × Int)) := do
  let interferences := i.interferences.map fun x => x.intersect i.gc
  let interferences := shrinkInterference interferences
  let interferences := interferences.foldl addInterferences SortedMap.empty
  let numSlots := interferences.items.foldl (fun z x => max x.2.numItems z) 0
  let candidates := SlotSet.generate next numSlots
  let refs := interferences.listKeys
  assignSlots refs candidates interferences.items fun _ => none

/-! ### Adjacent variables -/

section Adjacent

/-- The variables next to each variable, in one of the sets. -/
structure Adjacent (z : SortedMap Int VarSet) (sets : List VarSet) : Prop where
  mem : ∀ id adj, z.find id = some adj → ∀ w, w ∈ adj ↔ ∃ s ∈ sets, id ∈ s ∧ w ∈ s
  domain : ∀ id, (∃ adj, z.find id = some adj) ↔ ∃ s ∈ sets, id ∈ s

theorem find_foldl_add {vars : VarSet} (vs : List VarInfo)
    (hnodup : (vs.map VarInfo.id).Nodup) (z : SortedMap Int VarSet) (id : Int) :
    (vs.foldl (fun z var => match z.find var.id with
        | none => z.insert var.id vars
        | some v => z.insert var.id (v.union vars)) z).find id =
      if id ∈ vs.map VarInfo.id then
        some (match z.find id with
          | none => vars
          | some v => v.union vars)
      else z.find id := by
  induction vs generalizing z with
  | nil => simp
  | cons var vs ih =>
    obtain ⟨hnot, hnodup⟩ := List.nodup_cons.mp hnodup
    have hinsert : ∀ id, (match z.find var.id with
        | none => z.insert var.id vars
        | some v => z.insert var.id (v.union vars)).find id =
        if id = var.id then
          some (match z.find id with
            | none => vars
            | some v => v.union vars)
        else z.find id := by
      intro id
      cases hfind : z.find var.id with
      | none =>
        simp only [SortedMap.find_insert]
        by_cases hid : id = var.id
        · simp [hid, hfind]
        · simp [hid]
      | some v =>
        simp only [SortedMap.find_insert]
        by_cases hid : id = var.id
        · simp [hid, hfind]
        · simp [hid]
    rw [List.foldl_cons, ih hnodup, hinsert, List.map_cons]
    by_cases hid : id = var.id
    · have hout : id ∉ vs.map VarInfo.id := hid ▸ hnot
      rw [if_neg hout, if_pos hid, if_pos (List.mem_cons.mpr (Or.inl hid))]
    · simp only [hid, if_false, List.mem_cons, false_or]

theorem find_add_of_mem {z : SortedMap Int VarSet} {vars : VarSet} {id : Int}
    (hid : id ∈ vars) : (addInterferences z vars).find id =
      some (match z.find id with | none => vars | some v => v.union vars) := by
  rw [addInterferences, find_foldl_add vars.items vars.nodup z id]
  exact if_pos hid

theorem find_add_of_not_mem {z : SortedMap Int VarSet} {vars : VarSet} {id : Int}
    (hid : id ∉ vars) : (addInterferences z vars).find id = z.find id := by
  rw [addInterferences, find_foldl_add vars.items vars.nodup z id]
  exact if_neg hid

theorem Adjacent.add {z : SortedMap Int VarSet} {sets : List VarSet}
    (h : Adjacent z sets) (vars : VarSet) :
    Adjacent (addInterferences z vars) (vars :: sets) := by
  constructor
  · intro id adj hadj w
    rw [List.exists_mem_cons_iff]
    by_cases hid : id ∈ vars
    · rw [find_add_of_mem hid, Option.some.injEq] at hadj
      cases hfind : z.find id with
      | none =>
        simp only [hfind] at hadj
        have hno : ¬ ∃ s ∈ sets, id ∈ s := by
          rw [← h.domain, hfind]
          simp
        rw [← hadj, or_iff_left fun ⟨s, hs, hid', _⟩ => hno ⟨s, hs, hid'⟩]
        exact (and_iff_right hid).symm
      | some v =>
        simp only [hfind] at hadj
        rw [← hadj, KeyedSet.mem_union, h.mem id v hfind, and_iff_right hid]
        exact or_comm
    · rw [find_add_of_not_mem hid] at hadj
      rw [or_iff_right fun hboth => hid hboth.1]
      exact h.mem id adj hadj w
  · intro id
    rw [List.exists_mem_cons_iff]
    by_cases hid : id ∈ vars
    · rw [find_add_of_mem hid]
      exact ⟨fun _ => Or.inl hid, fun _ => ⟨_, rfl⟩⟩
    · rw [find_add_of_not_mem hid, or_iff_right hid]
      exact h.domain id

theorem adjacent_foldl (sets : List VarSet) :
    Adjacent (sets.foldl addInterferences SortedMap.empty) sets := by
  have hfold : ∀ (z : SortedMap Int VarSet) (done todo : List VarSet), Adjacent z done →
      Adjacent (todo.foldl addInterferences z) (todo.reverse ++ done) := by
    intro z done todo
    induction todo generalizing z done with
    | nil => exact id
    | cons vars todo ih =>
      intro h
      rw [List.foldl_cons, List.reverse_cons, List.append_assoc]
      exact ih _ _ (h.add vars)
  have hstart : Adjacent SortedMap.empty [] := by
    constructor <;> simp [SortedMap.find, SortedMap.empty]
  have hall := hfold _ [] sets hstart
  constructor
  · intro id adj hadj w
    rw [hall.mem id adj hadj w]
    simp
  · intro id
    rw [hall.domain id]
    simp

/-- Every set is below one that is kept. -/
theorem shrinkInterference_covers (sets : List VarSet) :
    ∀ s ∈ sets, ∃ s' ∈ shrinkInterference sets, s ≤ s' := by
  fun_induction shrinkInterference sets with
  | case1 => simp
  | case2 x => simp
  | case3 vars1 vars2 t2 hsub ih =>
    intro s hs
    rcases List.mem_cons.mp hs with rfl | hs
    · obtain ⟨s', hs', hle⟩ := ih vars2 List.mem_cons_self
      exact ⟨s', hs', (KeyedSet.isSubsetOf_iff.mp hsub).trans hle⟩
    · exact ih s hs
  | case4 vars1 vars2 t2 hnot hsub ih =>
    intro s hs
    rcases List.mem_cons.mp hs with rfl | hs
    · exact ih s List.mem_cons_self
    · rcases List.mem_cons.mp hs with rfl | hs
      · obtain ⟨s', hs', hle⟩ := ih vars1 List.mem_cons_self
        exact ⟨s', hs', (KeyedSet.isSubsetOf_iff.mp hsub).trans hle⟩
      · exact ih s (List.mem_cons_of_mem _ hs)
  | case5 vars1 vars2 t2 hnot hnot' ih =>
    intro s hs
    rcases List.mem_cons.mp hs with rfl | hs
    · exact ⟨s, List.mem_cons_self, le_refl s⟩
    · obtain ⟨s', hs', hle⟩ := ih s hs
      exact ⟨s', List.mem_cons_of_mem _ hs', hle⟩

theorem mem_of_mem_shrinkInterference (sets : List VarSet) {s : VarSet}
    (hs : s ∈ shrinkInterference sets) : s ∈ sets := by
  fun_induction shrinkInterference sets with
  | case1 => exact hs
  | case2 x => exact hs
  | case3 vars1 vars2 t2 hsub ih => exact List.mem_cons_of_mem _ (ih hs)
  | case4 vars1 vars2 t2 hnot hsub ih =>
    rcases List.mem_cons.mp (ih hs) with rfl | hs
    · exact List.mem_cons_self
    · exact List.mem_cons_of_mem _ (List.mem_cons_of_mem _ hs)
  | case5 vars1 vars2 t2 hnot hnot' ih =>
    rcases List.mem_cons.mp hs with rfl | hs
    · exact List.mem_cons_self
    · exact List.mem_cons_of_mem _ (ih hs)

end Adjacent

/-! ### The greedy assignment -/

section Assign

theorem varsToSlots_ok {refs : List Int} {vars : List VarInfo}
    (hrefs : refs.Pairwise (· < ·)) (hvars : (vars.map VarInfo.id).Pairwise (· < ·))
    (hsub : ∀ v ∈ vars, v.id ∈ refs) :
    varsToSlots refs vars = .ok (vars.map VarInfo.id) := by
  fun_induction varsToSlots refs vars with
  | case1 => rfl
  | case2 h t => exact absurd (hsub h List.mem_cons_self) List.not_mem_nil
  | case3 id1 alloc => rfl
  | case4 alloc h slots ih =>
    obtain ⟨hlt, hrefs⟩ := List.pairwise_cons.mp hrefs
    obtain ⟨hlt', hvars⟩ := List.pairwise_cons.mp hvars
    have hrest : ∀ v ∈ slots, v.id ∈ alloc := by
      intro v hv
      apply (List.mem_cons.mp (hsub v (List.mem_cons_of_mem _ hv))).resolve_left
      exact (hlt' v.id (List.mem_map_of_mem hv)).ne'
    rw [ih hrefs hvars hrest, except_ok_bind]
    rfl
  | case5 id1 alloc h slots hne hlt =>
    have hmem := (List.mem_cons.mp (hsub h List.mem_cons_self)).resolve_left
      (Ne.symm hne)
    have hgt := (List.pairwise_cons.mp hrefs).1 h.id hmem
    omega
  | case6 id1 alloc h slots hne hge ih =>
    obtain ⟨hlt, hrefs⟩ := List.pairwise_cons.mp hrefs
    apply ih hrefs hvars
    intro v hv
    apply (List.mem_cons.mp (hsub v hv)).resolve_left
    rcases List.mem_cons.mp hv with rfl | hv'
    · exact Ne.symm hne
    · have hgt := (List.pairwise_cons.mp hvars).1 v.id (List.mem_map_of_mem hv')
      omega

theorem numItems_generate (next : Int) (numItems : Nat) :
    (SlotSet.generate next numItems).numItems = numItems := by
  simp [SlotSet.generate, KeyedSet.numItems]

/-- There is a slot that no variable next to `var` has: `var` itself is among them
and has none. -/
theorem choose_free {candidates : SlotSet} {adjVars : VarSet} {var : Int}
    {slots : Int → Option Int} (hself : var ∈ adjVars) (hfree : slots var = none)
    (hsize : adjVars.numItems ≤ candidates.numItems) :
    ∃ id, SlotSet.choose (candidates.setMinus (KeyedSet.fromList
        ((adjVars.items.map VarInfo.id).filterMap slots))) = .ok id ∧
      id ∈ candidates ∧ ∀ w ∈ adjVars, slots w ≠ some id := by
  have hfew : ((adjVars.items.map VarInfo.id).filterMap slots).length <
      adjVars.numItems := by
    have hlt : ((adjVars.items.map VarInfo.id).filterMap slots).length <
        (adjVars.items.map VarInfo.id).length :=
      List.length_filterMap_lt_length_iff_exists.mpr ⟨var, hself, hfree⟩
    simpa [KeyedSet.numItems] using hlt
  set adjset : SlotSet := KeyedSet.fromList
    ((adjVars.items.map VarInfo.id).filterMap slots)
  have hadjset : adjset.numItems < candidates.numItems :=
    (KeyedSet.numItems_fromList_le _).trans_lt (hfew.trans_le hsize)
  cases hitems : (candidates.setMinus adjset).items with
  | nil =>
    have hsub : candidates ≤ adjset := by
      intro k hk
      by_contra hnot
      have hmem : k ∈ candidates.setMinus adjset :=
        KeyedSet.mem_setMinus.mpr ⟨hk, hnot⟩
      rw [KeyedSet.mem_def, hitems] at hmem
      simp at hmem
    exact absurd (KeyedSet.numItems_mono hsub) (not_le.mpr hadjset)
  | cons id rest =>
    have hmem : id ∈ candidates.setMinus adjset := by
      rw [KeyedSet.mem_def, hitems]
      exact ⟨id, List.mem_cons_self, rfl⟩
    obtain ⟨hcandidate, hnot⟩ := KeyedSet.mem_setMinus.mp hmem
    refine ⟨id, ?_, hcandidate, ?_⟩
    · rw [SlotSet.choose, hitems]
    · intro w hw hslot
      apply hnot
      rw [KeyedSet.mem_fromList]
      exact ⟨id, List.mem_filterMap.mpr ⟨w, hw, hslot⟩, rfl⟩

/-- Every variable gets a slot that no variable next to it has. -/
theorem assignSlots_ok {refs : List Int} {candidates : SlotSet}
    {together : Int → Int → Prop} (hsymm : ∀ v w, together v w → together w v)
    (hrefs : refs.Pairwise (· < ·)) (alloc : List (Int × VarSet))
    (hnodup : (alloc.map Prod.fst).Nodup)
    (hadj : ∀ entry ∈ alloc, (∀ w, w ∈ entry.2 ↔ together entry.1 w) ∧
      (∀ w ∈ entry.2, w ∈ refs) ∧ entry.1 ∈ entry.2 ∧
      entry.2.numItems ≤ candidates.numItems)
    (slots : Int → Option Int) (hfree : ∀ v ∈ alloc.map Prod.fst, slots v = none) :
    ∃ out, assignSlots refs candidates alloc slots = .ok out ∧
      out.map Prod.fst = alloc.map Prod.fst ∧
      (∀ entry ∈ out, entry.2 ∈ candidates ∧
        ∀ w, together entry.1 w → slots w ≠ some entry.2) ∧
      out.Pairwise fun left right => together left.1 right.1 → left.2 ≠ right.2 := by
  induction alloc generalizing slots with
  | nil => exact ⟨[], rfl, rfl, by simp, List.Pairwise.nil⟩
  | cons entry alloc ih =>
    obtain ⟨var, adjVars⟩ := entry
    obtain ⟨⟨htogether, hknown, hself, hsize⟩, hadj⟩ := List.forall_mem_cons.mp hadj
    obtain ⟨hnot, hnodup⟩ := List.nodup_cons.mp hnodup
    obtain ⟨hvar, hfree⟩ := List.forall_mem_cons.mp hfree
    have hadjacent : varsToSlots refs adjVars.items =
        .ok (adjVars.items.map VarInfo.id) := by
      apply varsToSlots_ok hrefs
      · rw [List.pairwise_map]
        exact adjVars.sorted
      · intro v hv
        exact hknown v.id (List.mem_map_of_mem hv)
    obtain ⟨id, hchoose, hcandidate, hid⟩ := choose_free hself hvar hsize
    have hfree' : ∀ v ∈ alloc.map Prod.fst,
        Function.update slots var (some id) v = none := by
      intro v hv
      have hne : v ≠ var := fun heq => hnot (heq ▸ hv)
      rw [Function.update_of_ne hne]
      exact hfree v hv
    obtain ⟨out, hrun, hkeys, hslots, hpairwise⟩ := ih hnodup hadj _ hfree'
    refine ⟨(var, id) :: out, ?_, ?_, ?_, ?_⟩
    · rw [assignSlots, hadjacent, except_ok_bind]
      simp only [hchoose, except_ok_bind, hrun]
      rfl
    · rw [List.map_cons, List.map_cons, hkeys]
    · rw [List.forall_mem_cons]
      constructor
      · exact ⟨hcandidate, fun w hw => hid w ((htogether w).mpr hw)⟩
      · intro entry hentry
        refine ⟨(hslots entry hentry).1, fun w hw => ?_⟩
        by_cases hwv : w = var
        · rw [hwv, hvar]
          simp
        · have hslot := (hslots entry hentry).2 w hw
          rwa [Function.update_of_ne hwv] at hslot
    · apply List.pairwise_cons.mpr
      refine ⟨fun entry hentry htog heq => ?_, hpairwise⟩
      apply (hslots entry hentry).2 var (hsymm _ _ htog)
      rw [Function.update_self]
      exact congrArg some heq

theorem le_foldl_max {α : Type} (size : α → Nat) (xs : List α) (start : Nat) :
    start ≤ xs.foldl (fun z x => max (size x) z) start ∧
      ∀ x ∈ xs, size x ≤ xs.foldl (fun z x => max (size x) z) start := by
  induction xs generalizing start with
  | nil => simp
  | cons x xs ih =>
    obtain ⟨hstart, hall⟩ := ih (max (size x) start)
    rw [List.foldl_cons, List.forall_mem_cons]
    exact ⟨(le_max_right _ _).trans hstart, (le_max_left _ _).trans hstart, hall⟩

end Assign

/-- Every variable that is live across an instruction that may collect gets a
slot, and two of them that are live across one such instruction get different
slots. -/
theorem allocSlot_separates {ι : Type} (next : Int) (blocks : List (Block ι)) :
    ∃ alloc, allocSlot next (interference blocks) = .ok alloc ∧
      (∀ v, (∃ slot, alloc.lookup v = some slot) ↔ v ∈ (interference blocks).gc) ∧
      ∀ block ∈ blocks, ∀ alive ∈ block.gcPoints, ∀ v w, alive v → alive w →
        v ≠ w → ∃ slot slot', alloc.lookup v = some slot ∧
          alloc.lookup w = some slot' ∧ slot ≠ slot' := by
  set i := interference blocks with hi
  set sets := shrinkInterference (i.interferences.map fun x => x.intersect i.gc)
    with hsets
  set map := sets.foldl addInterferences SortedMap.empty with hmap
  have hadjacent : Adjacent map sets := adjacent_foldl sets
  -- the variables of the kept sets are those of the `gc` set
  have hcover : ∀ block ∈ blocks, ∀ alive ∈ block.gcPoints,
      ∃ s ∈ sets, ∀ v, alive v → v ∈ s := by
    intro block hblock alive halive
    obtain ⟨s, hs, hsub⟩ := interference_together blocks hblock halive
    obtain ⟨s', hs', hle⟩ := shrinkInterference_covers _ _
      (List.mem_map_of_mem (f := fun x => KeyedSet.intersect x i.gc) hs)
    refine ⟨s', hs', fun v hv => hle v ?_⟩
    rw [KeyedSet.mem_intersect]
    exact ⟨hsub v hv, (mem_interference_gc blocks v).mpr ⟨block, hblock, alive, halive, hv⟩⟩
  have hdomain : ∀ v, v ∈ map.listKeys ↔ v ∈ i.gc := by
    intro v
    rw [SortedMap.mem_listKeys_iff, hadjacent.domain]
    constructor
    · rintro ⟨s, hs, hv⟩
      obtain ⟨x, -, rfl⟩ := List.mem_map.mp (mem_of_mem_shrinkInterference _ hs)
      exact (KeyedSet.mem_intersect.mp hv).2
    · intro hv
      obtain ⟨block, hblock, alive, halive, hlive⟩ :=
        (mem_interference_gc blocks v).mp hv
      obtain ⟨s, hs, hsub⟩ := hcover block hblock alive halive
      exact ⟨s, hs, hsub v hlive⟩
  let together v w := ∃ s ∈ sets, v ∈ s ∧ w ∈ s
  have hsymm : ∀ v w, together v w → together w v := fun v w ⟨s, hs, hv, hw⟩ =>
    ⟨s, hs, hw, hv⟩
  have hrefs : map.listKeys.Pairwise (· < ·) := by
    rw [SortedMap.listKeys, List.pairwise_map]
    exact map.sorted
  have hadj : ∀ entry ∈ map.items, (∀ w, w ∈ entry.2 ↔ together entry.1 w) ∧
      (∀ w ∈ entry.2, w ∈ map.listKeys) ∧ entry.1 ∈ entry.2 ∧
      entry.2.numItems ≤ (SlotSet.generate next
        (map.items.foldl (fun z x => max x.2.numItems z) 0)).numItems := by
    intro entry hentry
    have hfind := SortedMap.find_of_mem hentry
    have hmem := hadjacent.mem _ _ hfind
    refine ⟨hmem, fun w hw => ?_, ?_, ?_⟩
    · obtain ⟨s, hs, -, hw⟩ := (hmem w).mp hw
      rw [SortedMap.mem_listKeys_iff, hadjacent.domain]
      exact ⟨s, hs, hw⟩
    · obtain ⟨s, hs, hv⟩ := (hadjacent.domain _).mp ⟨_, hfind⟩
      exact (hmem _).mpr ⟨s, hs, hv, hv⟩
    · rw [numItems_generate]
      exact (le_foldl_max (fun x : Int × VarSet => x.2.numItems) map.items 0).2 entry hentry
  obtain ⟨out, hrun, hkeys, -, hpairwise⟩ := assignSlots_ok hsymm hrefs map.items
    map.listKeys_nodup hadj (fun _ => none) (fun _ _ => rfl)
  have hnodup : (out.map Prod.fst).Nodup := by
    rw [hkeys]
    exact map.listKeys_nodup
  have hlookup : ∀ v, (∃ slot, out.lookup v = some slot) ↔ v ∈ i.gc := by
    intro v
    rw [← hdomain, SortedMap.listKeys, ← hkeys]
    simp [KeyedList.lookup_eq_some_iff hnodup]
  refine ⟨out, hrun, hlookup, ?_⟩
  intro block hblock alive halive v w hv hw hne
  have hgc : ∀ v, alive v → v ∈ i.gc := fun v hv =>
    (mem_interference_gc blocks v).mpr ⟨block, hblock, alive, halive, hv⟩
  obtain ⟨slot, hslot⟩ := (hlookup v).mpr (hgc v hv)
  obtain ⟨slot', hslot'⟩ := (hlookup w).mpr (hgc w hw)
  refine ⟨slot, slot', hslot, hslot', ?_⟩
  obtain ⟨s, hs, hsub⟩ := hcover block hblock alive halive
  rw [KeyedList.lookup_eq_some_iff hnodup] at hslot hslot'
  -- whichever of the two comes first, the other one avoids its slot
  have hsym : Std.Symm fun left right : Int × Int =>
      together left.1 right.1 → left.2 ≠ right.2 :=
    ⟨fun left right h htog => (h (hsymm _ _ htog)).symm⟩
  exact hpairwise.forall hslot hslot' (fun heq => hne (congrArg Prod.fst heq))
    ⟨s, hs, hsub v hv, hsub w hw⟩

end StackAllocation

end SmlSharp
