/-
The relation on type ids that the lists of a sharing constraint make, and when
it is the least equivalence relation that relates the ids of each list.
-/
import SmlSharp.NameEvaluation.NormalizeTy
import Mathlib.Logic.Relation
import Mathlib.Data.List.Induction

namespace SmlSharp.NameEvaluation

/-- Both ids are in one of the lists. -/
def Shared (typIdListList : List (List TypId)) (id1 id2 : TypId) : Prop :=
  ∃ typIdList ∈ typIdListList, id1 ∈ typIdList ∧ id2 ∈ typIdList

/-- The last list that has the id behind its first one starts with `id0`. -/
def LastHead (typIdListList : List (List TypId)) (id id0 : TypId) : Prop :=
  ∃ earlier rest later, typIdListList = earlier ++ (id0 :: rest) :: later ∧ id ∈ rest ∧
    ∀ typIdList ∈ later, id ∉ typIdList.tail

/-- No list has the id behind its first one. -/
def NeverBehind (typIdListList : List (List TypId)) (id : TypId) : Prop :=
  ∀ typIdList ∈ typIdListList, id ∉ typIdList.tail

/-- For all ids of the list, the last list that has the id behind its first one
starts with the same id, which itself may stand behind no other. -/
def OneHead (typIdListList : List (List TypId)) (typIdList : List TypId) : Prop :=
  ∃ id0, ∀ id ∈ typIdList,
    LastHead typIdListList id id0 ∨ id = id0 ∧ NeverBehind typIdListList id

def insertRest (id0 : TypId) (rest : List TypId) (typIdEnv : List (TypId × TypId)) :
    List (TypId × TypId) :=
  rest.foldl (fun typIdEnv id => (id, id0) :: typIdEnv) typIdEnv

theorem lookup_insertRest (id0 : TypId) (rest : List TypId) (typIdEnv : List (TypId × TypId))
    (id : TypId) : (insertRest id0 rest typIdEnv).lookup id =
      if id ∈ rest then some id0 else typIdEnv.lookup id := by
  induction rest generalizing typIdEnv with
  | nil => simp [insertRest]
  | cons id' rest ih =>
    rw [insertRest, List.foldl_cons]
    refine (ih _).trans ?_
    by_cases hrest : id ∈ rest
    · simp [hrest]
    · by_cases heq : id = id'
      · subst heq
        simp [hrest]
      · simp [hrest, heq, List.lookup_cons, beq_eq_false_iff_ne.2 heq]

/-- The map that one list makes from another. -/
def insertList (typIdEnv : List (TypId × TypId)) : List TypId → List (TypId × TypId)
  | [] => typIdEnv
  | [_] => typIdEnv
  | id0 :: rest => insertRest id0 rest typIdEnv

theorem lookup_insertList (typIdEnv : List (TypId × TypId)) (typIdList : List TypId)
    (id : TypId) : (insertList typIdEnv typIdList).lookup id =
      if id ∈ typIdList.tail then typIdList.head? else typIdEnv.lookup id := by
  match typIdList with
  | [] => simp [insertList]
  | [_] => simp [insertList]
  | id0 :: id1 :: rest => exact lookup_insertRest id0 (id1 :: rest) typIdEnv id

/-- The id that the map has for an id. -/
def representative (typIdListList : List (List TypId)) (id : TypId) : TypId :=
  ((typIdListList.foldl insertList []).lookup id).getD id

theorem makeTypIdEquiv_iff (typIdListList : List (List TypId)) (id1 id2 : TypId) :
    makeTypIdEquiv typIdListList id1 id2 = true ↔
      representative typIdListList id1 = representative typIdListList id2 := by
  have hfold : makeTypIdEquiv typIdListList id1 id2 =
      (representative typIdListList id1 == representative typIdListList id2) := by
    have hstep : insertList = fun typIdEnv typIdList =>
        match typIdList with
        | [] => typIdEnv
        | [_] => typIdEnv
        | id0 :: rest => rest.foldl (fun typIdEnv id => (id, id0) :: typIdEnv) typIdEnv := by
      funext typIdEnv typIdList
      match typIdList with
      | [] => rfl
      | [_] => rfl
      | _ :: _ :: _ => rfl
    rw [representative, representative, hstep]
    rfl
  rw [hfold, beq_iff_eq]

theorem representative_append (typIdListList : List (List TypId)) (typIdList : List TypId)
    (id : TypId) : representative (typIdListList ++ [typIdList]) id =
      if id ∈ typIdList.tail then typIdList.head?.getD id
      else representative typIdListList id := by
  rw [representative, List.foldl_append, List.foldl_cons, List.foldl_nil, lookup_insertList]
  split
  · rfl
  · rfl

theorem representative_spec (typIdListList : List (List TypId)) (id : TypId) :
    LastHead typIdListList id (representative typIdListList id) ∨
      id = representative typIdListList id ∧ NeverBehind typIdListList id := by
  induction typIdListList using List.reverseRecOn with
  | nil => exact Or.inr ⟨rfl, by simp [NeverBehind]⟩
  | append_singleton typIdListList typIdList ih =>
    rw [representative_append]
    by_cases hmem : id ∈ typIdList.tail
    · rw [if_pos hmem]
      cases typIdList with
      | nil => cases hmem
      | cons id0 rest => exact Or.inl ⟨typIdListList, rest, [], rfl, hmem, by simp⟩
    · rw [if_neg hmem]
      rcases ih with ⟨earlier, rest, later, heq, hrest, hlater⟩ | ⟨heq, hnever⟩
      · refine Or.inl ⟨earlier, rest, later ++ [typIdList], ?_, hrest, ?_⟩
        · conv_lhs => rw [heq]
          simp
        · intro list hlist
          rcases List.mem_append.1 hlist with hlist | hlist
          · exact hlater list hlist
          · rwa [List.mem_singleton.1 hlist]
      · refine Or.inr ⟨heq, ?_⟩
        intro list hlist
        rcases List.mem_append.1 hlist with hlist | hlist
        · exact hnever list hlist
        · rwa [List.mem_singleton.1 hlist]

theorem LastHead.unique {typIdListList : List (List TypId)} {id id0 id1 : TypId}
    (h : LastHead typIdListList id id0) (h' : LastHead typIdListList id id1) : id0 = id1 := by
  obtain ⟨earlier, rest, later, rfl, hrest, hlater⟩ := h
  obtain ⟨earlier', rest', later', heq, hrest', hlater'⟩ := h'
  rcases List.append_eq_append_iff.1 heq with ⟨middle, _, hmiddle⟩ | ⟨middle, _, hmiddle⟩
  · cases middle with
    | nil =>
      cases hmiddle
      rfl
    | cons list middle =>
      rw [List.cons_append, List.cons.injEq] at hmiddle
      refine absurd hrest' (hlater (id1 :: rest') ?_)
      rw [hmiddle.2]
      simp
  · cases middle with
    | nil =>
      cases hmiddle
      rfl
    | cons list middle =>
      rw [List.cons_append, List.cons.injEq] at hmiddle
      refine absurd hrest (hlater' (id0 :: rest) ?_)
      rw [hmiddle.2]
      simp

theorem LastHead.not_never {typIdListList : List (List TypId)} {id id0 : TypId}
    (h : LastHead typIdListList id id0) : ¬ NeverBehind typIdListList id := by
  obtain ⟨earlier, rest, later, rfl, hrest, _⟩ := h
  intro hnever
  exact hnever (id0 :: rest) (by simp) hrest

theorem representative_eq_iff {typIdListList : List (List TypId)} {id id0 : TypId} :
    representative typIdListList id = id0 ↔
      LastHead typIdListList id id0 ∨ id = id0 ∧ NeverBehind typIdListList id := by
  constructor
  · rintro rfl
    exact representative_spec typIdListList id
  · intro h
    rcases representative_spec typIdListList id with hlast | ⟨heq, hnever⟩
    · rcases h with hlast' | ⟨_, hnever⟩
      · exact hlast.unique hlast'
      · exact absurd hnever hlast.not_never
    · rcases h with hlast' | ⟨heq', _⟩
      · exact absurd hnever hlast'.not_never
      · exact heq.symm.trans heq'

theorem oneHead_iff {typIdListList : List (List TypId)} {typIdList : List TypId} :
    OneHead typIdListList typIdList ↔
      ∃ id0, ∀ id ∈ typIdList, representative typIdListList id = id0 := by
  simp only [OneHead, representative_eq_iff]

/-- An id is linked to its representative. -/
theorem representative_linked (typIdListList : List (List TypId)) (id : TypId) :
    Relation.EqvGen (Shared typIdListList) id (representative typIdListList id) := by
  rcases representative_spec typIdListList id with ⟨earlier, rest, later, heq, hrest, _⟩ | ⟨heq, _⟩
  · generalize representative typIdListList id = id0 at heq ⊢
    refine .rel _ _ ⟨id0 :: rest, ?_, List.mem_cons_of_mem _ hrest, List.mem_cons_self⟩
    rw [heq]
    simp
  · rw [← heq]
    exact .refl id

/-- The relation is the least equivalence relation that relates the ids of each
list exactly if each list has one last head. -/
theorem makeTypIdEquiv_least_iff (typIdListList : List (List TypId)) :
    (∀ id1 id2, makeTypIdEquiv typIdListList id1 id2 = true ↔
        Relation.EqvGen (Shared typIdListList) id1 id2) ↔
      ∀ typIdList ∈ typIdListList, OneHead typIdListList typIdList := by
  simp only [makeTypIdEquiv_iff, oneHead_iff]
  constructor
  · intro hleast typIdList hmem
    cases typIdList with
    | nil => exact ⟨0, by simp⟩
    | cons id0 rest =>
      refine ⟨representative typIdListList id0, fun id hid => (hleast id id0).2 ?_⟩
      exact .rel _ _ ⟨id0 :: rest, hmem, hid, List.mem_cons_self⟩
  · intro hone id1 id2
    constructor
    · intro heq
      have hlinked := representative_linked typIdListList id1
      rw [heq] at hlinked
      exact hlinked.trans _ _ _ ((representative_linked typIdListList id2).symm _ _)
    · intro hlinked
      induction hlinked with
      | rel id1 id2 hshared =>
        obtain ⟨typIdList, hmem, hid1, hid2⟩ := hshared
        obtain ⟨id0, hrep⟩ := hone typIdList hmem
        exact (hrep id1 hid1).trans (hrep id2 hid2).symm
      | refl id => rfl
      | symm id1 id2 _ ih => exact ih.symm
      | trans id1 id2 id3 _ _ ih1 ih2 => exact ih1.trans ih2

/-- The second list takes its last id away from the class of the first list. -/
theorem makeTypIdEquiv_chain_apart :
    ¬ ∀ id1 id2, makeTypIdEquiv [[0, 1], [1, 2]] id1 id2 = true ↔
      Relation.EqvGen (Shared [[0, 1], [1, 2]]) id1 id2 := by
  intro hleast
  have hlinked : Relation.EqvGen (Shared [[0, 1], [1, 2]]) 0 2 :=
    (Relation.EqvGen.rel 0 1 ⟨[0, 1], by simp, by simp, by simp⟩).trans _ _ _
      (.rel 1 2 ⟨[1, 2], by simp, by simp, by simp⟩)
  have happart : makeTypIdEquiv [[0, 1], [1, 2]] 0 2 = false := by decide
  rw [(hleast 0 2).2 hlinked] at happart
  cases happart

end SmlSharp.NameEvaluation
