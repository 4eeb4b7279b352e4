/-
What the processing of one sharing list does to the cells: the cells compared on
the way are kept, and then every member that does not denote the type name of
the first one is redirected to it.
-/
import SmlSharp.NameEvaluation.ProcessShare
import SmlSharp.NameEvaluation.TypeVariables

namespace SmlSharp.NameEvaluation

/-- The ids of type names are generated: no two cells have the same. -/
def DistinctIds (heap : Heap) : Prop :=
  ∀ c d v w, (heap c).typeVariable = some v → (heap d).typeVariable = some w →
    v.id = w.id → c = d

theorem DistinctIds.mono {heap heap' : Heap} (h : DistinctIds heap)
    (hsub : ∀ c v, (heap' c).typeVariable = some v → (heap c).typeVariable = some v) :
    DistinctIds heap' :=
  fun c d v w hv hw hid => h c d v w (hsub c v hv) (hsub d w hw) hid

theorem tfvId_of_denotes {heap : Heap} {fuel : Nat} {c r : Tfv} {id : TypId}
    (hr : Denotes heap c r) (hid : tfvId heap fuel c = .ok id) :
    ∃ v, (heap r).typeVariable = some v ∧ v.id = id := by
  induction fuel generalizing c with
  | zero => simp [tfvId] at hid
  | succ fuel ih =>
    rw [tfvId] at hid
    rcases hr.cases with ⟨rfl, v, hv⟩ | ⟨id', d, hcell, hd⟩
    · cases hcell : heap r with
      | tfvSpec id' admitsEq formals =>
        simp only [hcell, Except.ok.injEq] at hid
        exact ⟨⟨false, id', admitsEq, formals⟩, rfl, hid⟩
      | tfvDty id' admitsEq formals conSpec liftedTys =>
        simp only [hcell, Except.ok.injEq] at hid
        exact ⟨⟨true, id', admitsEq, formals⟩, rfl, hid⟩
      | tfunDty | realized | instantiated | funDty =>
        simp [hcell, Tfunkind.typeVariable] at hv
    · rw [hcell] at hid
      exact ih hd hid

/-- The members that did not denote the type name of the first one refer to it
now, and no other cell has changed. -/
structure RedirectedTo (first root : Tfv) (members : List Tfv) (heap heap' : Heap) : Prop where
  links : Redirects first root members (Heap.link heap) (Heap.link heap')
  same : ∀ c, heap' c = heap c ∨ (c ∈ members ∧ Heap.link heap' c = some first)

section Assign

variable {heap : Heap} {first root m r : Tfv} (id : TypId)

theorem denotes_assign (hfirst : Denotes heap first root) (hm : Denotes heap m r)
    (hne : r ≠ root) :
    Denotes (Function.update heap m (.realized id (.tfunVar first))) first root := by
  have hroot : root ≠ m := by
    rintro rfl
    exact hne (hm.unique ⟨hfirst.1.root, hfirst.2⟩)
  refine ⟨?_, ?_⟩
  · rw [Heap.link_update]
    exact hfirst.1.update_of_ne hm.1 hne.symm _
  · rw [Function.update_of_ne hroot]
    exact hfirst.2

theorem denotes_assign_or (hfirst : Denotes heap first root) (hm : Denotes heap m r)
    (hne : r ≠ root) {x s : Tfv} (hx : Denotes heap x s) :
    Denotes (Function.update heap m (.realized id (.tfunVar first))) x s ∨
      Denotes (Function.update heap m (.realized id (.tfunVar first))) x root := by
  have hfirst' := denotes_assign id hfirst hm hne
  have hlink := hfirst'.1
  rw [Heap.link_update] at hlink
  rcases hx.1.update hlink with hx' | hx'
  · refine Or.inl ⟨?_, ?_⟩
    · rwa [Heap.link_update]
    · have hsm : s ≠ m := by
        rintro rfl
        have hnone := hx'.link_root
        simp at hnone
      rw [Function.update_of_ne hsm]
      exact hx.2
  · refine Or.inr ⟨?_, hfirst'.2⟩
    rwa [Heap.link_update]

end Assign

theorem redirectMembers_redirects {fuel : Nat} {first root : Tfv} {firstId : TypId}
    {v : TypeVariable} (hid : v.id = firstId) :
    ∀ (list : List PathTfv) (state state' : NormState), DistinctIds state.heap →
      Denotes state.heap first root → (state.heap root).typeVariable = some v →
      (∀ pathTfv ∈ list, ∃ r, Denotes state.heap pathTfv.2 r) →
      redirectMembers fuel first firstId list state = .ok ((), state') →
      RedirectedTo first root (list.map Prod.snd) state.heap state'.heap
  | [], state, state', _, _, _, _, hrun => by
      cases stateT_pure_ok.1 hrun
      exact ⟨.done, fun _ => Or.inl rfl⟩
  | (path, m) :: rest, state, state', hdistinct, hfirst, hv, hmembers, hrun => by
      obtain ⟨r, hm⟩ := hmembers (path, m) List.mem_cons_self
      have hrest : ∀ pathTfv ∈ rest, ∃ r, Denotes state.heap pathTfv.2 r :=
        fun pathTfv hmem => hmembers pathTfv (List.mem_cons_of_mem _ hmem)
      rw [redirectMembers] at hrun
      obtain ⟨id, middle, hrunId, hrun⟩ := stateT_bind_ok.1 hrun
      obtain ⟨hidr, hheap⟩ := onHeap_ok.1 hrunId
      subst hheap
      obtain ⟨w, hw, rfl⟩ := tfvId_of_denotes hm hidr
      split at hrun
      · next heq =>
          have hr : r = root := hdistinct r root w v hw hv (heq.trans hid.symm)
          subst hr
          have ih := redirectMembers_redirects hid rest _ _ hdistinct hfirst hv hrest hrun
          refine ⟨.keep hm.1 ih.links, fun c => ?_⟩
          rcases ih.same c with hc | ⟨hc, hlink⟩
          · exact Or.inl hc
          · exact Or.inr ⟨List.mem_cons_of_mem _ hc, hlink⟩
      · next hneId =>
          have hne : r ≠ root := by
            rintro rfl
            rw [hw] at hv
            cases hv
            exact hneId hid
          obtain ⟨_, middle', hassign, hrun⟩ := stateT_bind_ok.1 hrun
          cases stateT_modify_ok.1 hassign
          have hfirst' := denotes_assign w.id hfirst hm hne
          have hroot : root ≠ m := by
            rintro rfl
            exact hne (hm.unique ⟨hfirst.1.root, hfirst.2⟩)
          have ih := redirectMembers_redirects hid rest
            { middle with heap := Function.update middle.heap m (.realized w.id (.tfunVar first)) }
            _ ?_ hfirst' ?_ ?_ hrun
          · refine ⟨.redirect hm.1 hne ?_, fun c => ?_⟩
            · have hlinks := ih.links
              rwa [Heap.link_update] at hlinks
            · rcases ih.same c with hc | ⟨hc, hlink⟩
              · by_cases hcm : c = m
                · subst hcm
                  refine Or.inr ⟨List.mem_cons_self, ?_⟩
                  simp [Heap.link, hc, Tfunkind.link]
                · refine Or.inl ?_
                  rw [hc]
                  simp [hcm]
              · exact Or.inr ⟨List.mem_cons_of_mem _ hc, hlink⟩
          · refine hdistinct.mono fun c u hu => ?_
            by_cases hcm : c = m
            · subst hcm
              simp [Tfunkind.typeVariable] at hu
            · simpa [hcm] using hu
          · simpa [hroot] using hv
          · intro pathTfv hmem
            obtain ⟨s, hs⟩ := hrest pathTfv hmem
            rcases denotes_assign_or w.id hfirst hm hne hs with hs | hs
            · exact ⟨s, hs⟩
            · exact ⟨root, hs⟩

end SmlSharp.NameEvaluation
