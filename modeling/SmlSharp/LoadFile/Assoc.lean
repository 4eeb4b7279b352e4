/-
The key-value store of the file loader, in which insertion order is preserved:
a map together with a tree of its keys.  The raw operations follow the source;
`Assoc` packs a raw store with its representation invariant, so that a store
whose keys and map disagree cannot be built.
-/
import Mathlib.Data.List.Nodup
import Mathlib.Logic.Function.Basic

namespace SmlSharp

namespace LoadFile

universe u v w

/-- A list of keys as a tree, read from left to right. -/
inductive Keys (K : Type u) where
  | n
  | i (key : K)
  | a (left right : Keys K)

namespace Keys

variable {K : Type u} {B : Type v}

def toList : Keys K → List K
  | .n => []
  | .i key => [key]
  | .a left right => left.toList ++ right.toList

/-- Rotating a right-nested tree to the left makes it lighter. -/
def weight : Keys K → Nat
  | .n => 1
  | .i _ => 1
  | .a left right => left.weight + 2 * right.weight + 1

theorem weight_pos (keys : Keys K) : 0 < keys.weight := by
  cases keys <;> simp [weight]

def keysFoldr (f : K → B → B) (z : B) : Keys K → B
  | .n => z
  | .i k => f k z
  | .a ka .n => keysFoldr f z ka
  | .a ka (.i k) => keysFoldr f (f k z) ka
  | .a ka (.a kb kc) => keysFoldr f z (.a (.a ka kb) kc)
termination_by keys => keys.weight
decreasing_by
  · simp only [weight]; omega
  · simp only [weight]; omega
  · have := weight_pos kc
    simp only [weight]; omega

theorem keysFoldr_eq_foldr (f : K → B → B) (z : B) (keys : Keys K) :
    keysFoldr f z keys = keys.toList.foldr f z := by
  induction z, keys using keysFoldr.induct (f := f) with
  | case1 z => simp [keysFoldr, toList]
  | case2 z k => simp [keysFoldr, toList]
  | case3 z ka ih => simpa [keysFoldr, toList] using ih
  | case4 z ka k ih => simpa [keysFoldr, toList] using ih
  | case5 z ka kb kc ih => simpa [keysFoldr, toList] using ih

variable [DecidableEq K]

def rmKeyInto (key : K) : Keys K → Keys K → Keys K
  | .n, r => r
  | .i x, r => if x = key then r else .a (.i x) r
  | .a ka .n, r => rmKeyInto key ka r
  | .a ka (.a kb kc), r => rmKeyInto key (.a (.a ka kb) kc) r
  | .a ka (.i x), r =>
    if x = key then .a ka r else rmKeyInto key ka (.a (.i x) r)
termination_by keys _ => keys.weight
decreasing_by
  · simp only [weight]; omega
  · have := weight_pos kc
    simp only [weight]; omega
  · simp only [weight]; omega

def rmKey (key : K) (keys : Keys K) : Keys K := rmKeyInto key keys .n

def keysMinus (keys1 keys2 : Keys K) : Keys K :=
  keysFoldr (fun k z => rmKey k z) keys1 keys2

/-- `rmKey` drops the last occurrence of a key; in a list without duplicates
that is the only one. -/
theorem toList_rmKeyInto (key : K) (keys rest : Keys K)
    (hnodup : keys.toList.Nodup) : (rmKeyInto key keys rest).toList =
      keys.toList.erase key ++ rest.toList := by
  induction keys, rest using rmKeyInto.induct key with
  | case1 r => simp [rmKeyInto, toList]
  | case2 r => simp [rmKeyInto, toList]
  | case3 x r hx => simp [rmKeyInto, toList, hx]
  | case4 ka r ih =>
    simp only [toList, List.append_nil] at hnodup ⊢
    rw [rmKeyInto]
    exact ih hnodup
  | case5 ka kb kc r ih =>
    have hassoc : (Keys.a (.a ka kb) kc).toList = (Keys.a ka (.a kb kc)).toList := by
      simp [toList]
    rw [rmKeyInto, ← hassoc]
    exact ih (hassoc ▸ hnodup)
  | case6 ka r =>
    simp only [toList] at hnodup ⊢
    have hnot : key ∉ ka.toList := by
      intro hmem
      exact (List.nodup_append.mp hnodup).2.2 key hmem key (by simp) rfl
    rw [rmKeyInto, if_pos rfl, toList, List.erase_append_right _ hnot]
    simp
  | case7 ka x r hx ih =>
    simp only [toList] at hnodup ih ⊢
    rw [rmKeyInto, if_neg hx, ih (List.nodup_append.mp hnodup).1]
    by_cases hmem : key ∈ ka.toList
    · rw [List.erase_append_left _ hmem]
      simp
    · rw [List.erase_append_right _ hmem, List.erase_of_not_mem hmem]
      simp [hx]

theorem toList_rmKey (key : K) (keys : Keys K) (hnodup : keys.toList.Nodup) :
    (rmKey key keys).toList = keys.toList.filter (· ≠ key) := by
  rw [rmKey, toList_rmKeyInto key keys .n hnodup, hnodup.erase_eq_filter]
  simp [toList, bne, Bool.beq_eq_decide_eq]

theorem toList_keysMinus (keys1 keys2 : Keys K) (hnodup : keys1.toList.Nodup) :
    (keysMinus keys1 keys2).toList =
      keys1.toList.filter (· ∉ keys2.toList) := by
  rw [keysMinus, keysFoldr_eq_foldr]
  induction keys2.toList with
  | nil => simp
  | cons key rest ih =>
    rw [List.foldr_cons, toList_rmKey, ih, List.filter_filter]
    · apply List.filter_congr
      intro k _
      simp
    · rw [ih]
      exact hnodup.filter _

end Keys

/-- A store as the source represents it. -/
structure RawAssoc (K : Type u) (V : Type v) where
  smap : K → Option V
  keys : Keys K

namespace RawAssoc

variable {K : Type u} [DecidableEq K] {V : Type v} {W : Type w}

def empty : RawAssoc K V := ⟨fun _ => none, .n⟩

def singleton (k : K) (v : V) : RawAssoc K V :=
  ⟨Function.update (fun _ => none) k (some v), .i k⟩

def append (store : RawAssoc K V) (k : K) (v : V) : RawAssoc K V :=
  ⟨Function.update store.smap k (some v),
    if (store.smap k).isSome then store.keys else .a store.keys (.i k)⟩

/-- `unionWith` on the maps. -/
def unionWith (f : V → V → V) (smap1 smap2 : K → Option V) : K → Option V :=
  fun k => match smap1 k, smap2 k with
    | some v1, some v2 => some (f v1 v2)
    | some v1, none => some v1
    | none, v2 => v2

def concatWith (f : V → V → V) (store1 store2 : RawAssoc K V) : RawAssoc K V :=
  ⟨unionWith f store1.smap store2.smap,
    .a store1.keys (Keys.keysMinus store2.keys store1.keys)⟩

def find (store : RawAssoc K V) (k : K) : Option V := store.smap k

def remove (store : RawAssoc K V) (k : K) : Except String (RawAssoc K V) :=
  if (store.smap k).isSome then
    .ok ⟨Function.update store.smap k none, Keys.rmKey k store.keys⟩
  else .error "Assoc.remove"

def collect (f : V → W) (store : RawAssoc K V) : Except String (List W) :=
  Keys.keysFoldr
    (fun k z => match store.smap k, z with
      | some v, .ok z => .ok (f v :: z)
      | _, .error e => .error e
      | none, _ => .error "Assoc.collect")
    (.ok []) store.keys

def map (f : V → W) (store : RawAssoc K V) : RawAssoc K W :=
  ⟨fun k => (store.smap k).map f, store.keys⟩

/-- The key tree lists the domain of the map, each key once. -/
structure Wf (store : RawAssoc K V) : Prop where
  nodup : store.keys.toList.Nodup
  dom : ∀ k, k ∈ store.keys.toList ↔ (store.smap k).isSome

omit [DecidableEq K] in
theorem empty_wf : (empty : RawAssoc K V).Wf :=
  ⟨by simp [empty, Keys.toList], by simp [empty, Keys.toList]⟩

theorem singleton_wf (k : K) (v : V) : (singleton k v).Wf := by
  refine ⟨by simp [singleton, Keys.toList], fun k' => ?_⟩
  by_cases heq : k' = k <;> simp [singleton, Keys.toList, heq]

theorem append_wf {store : RawAssoc K V} (hwf : store.Wf) (k : K) (v : V) :
    (store.append k v).Wf := by
  by_cases hsome : (store.smap k).isSome
  · refine ⟨by simpa [append, hsome] using hwf.nodup, fun k' => ?_⟩
    by_cases heq : k' = k
    · subst heq
      simpa [append, hsome] using (hwf.dom k').mpr hsome
    · simpa [append, hsome, heq] using hwf.dom k'
  · have hnot : k ∉ store.keys.toList := fun hmem => hsome ((hwf.dom k).mp hmem)
    refine ⟨?_, fun k' => ?_⟩
    · simp only [append, hsome, Bool.false_eq_true, ↓reduceIte, Keys.toList]
      exact List.nodup_append.mpr ⟨hwf.nodup, List.nodup_singleton k,
        fun x hx y hy => by rintro rfl; simp at hy; exact hnot (hy ▸ hx)⟩
    · by_cases heq : k' = k
      · subst heq
        simp [append, hsome, Keys.toList]
      · simpa [append, hsome, Keys.toList, heq] using hwf.dom k'

omit [DecidableEq K] in
theorem unionWith_isSome (f : V → V → V) (smap1 smap2 : K → Option V) (k : K) :
    (unionWith f smap1 smap2 k).isSome =
      ((smap1 k).isSome || (smap2 k).isSome) := by
  unfold unionWith
  cases smap1 k <;> cases smap2 k <;> rfl

theorem concatWith_wf (f : V → V → V) {store1 store2 : RawAssoc K V}
    (hwf1 : store1.Wf) (hwf2 : store2.Wf) :
    (concatWith f store1 store2).Wf := by
  refine ⟨?_, fun k => ?_⟩
  · simp only [concatWith, Keys.toList]
    rw [Keys.toList_keysMinus _ _ hwf2.nodup]
    refine List.nodup_append.mpr ⟨hwf1.nodup, hwf2.nodup.filter _, ?_⟩
    rintro x hx y hy rfl
    simp only [List.mem_filter, decide_eq_true_eq] at hy
    exact hy.2 hx
  · simp only [concatWith, Keys.toList]
    rw [Keys.toList_keysMinus _ _ hwf2.nodup, unionWith_isSome]
    simp only [List.mem_append, List.mem_filter, decide_eq_true_eq,
      Bool.or_eq_true, hwf1.dom, hwf2.dom]
    tauto

theorem remove_wf {store store' : RawAssoc K V} (hwf : store.Wf) {k : K}
    (hremove : store.remove k = .ok store') : store'.Wf := by
  unfold remove at hremove
  split at hremove
  · cases hremove
    refine ⟨?_, fun k' => ?_⟩
    · rw [Keys.toList_rmKey _ _ hwf.nodup]
      exact hwf.nodup.filter _
    · rw [Keys.toList_rmKey _ _ hwf.nodup, List.mem_filter, hwf.dom]
      by_cases heq : k' = k <;> simp [heq]
  · cases hremove

omit [DecidableEq K] in
theorem map_wf (f : V → W) {store : RawAssoc K V} (hwf : store.Wf) :
    (store.map f).Wf :=
  ⟨hwf.nodup, fun k => by simpa [map] using hwf.dom k⟩

omit [DecidableEq K] in
/-- On a well-formed store the look-ups of `collect` never fail. -/
theorem collect_eq (f : V → W) {store : RawAssoc K V} (hwf : store.Wf) :
    store.collect f = .ok ((store.keys.toList.filterMap store.smap).map f) := by
  rw [collect, Keys.keysFoldr_eq_foldr]
  have hsome : ∀ k ∈ store.keys.toList, (store.smap k).isSome :=
    fun k hk => (hwf.dom k).mp hk
  revert hsome
  induction store.keys.toList with
  | nil => simp
  | cons key rest ih =>
    intro hsome
    obtain ⟨v, hv⟩ := Option.isSome_iff_exists.mp (hsome key List.mem_cons_self)
    rw [List.foldr_cons, ih fun k hk => hsome k (List.mem_cons_of_mem key hk)]
    simp [hv]

end RawAssoc

/-- A store that satisfies its representation invariant. -/
structure Assoc (K : Type u) [DecidableEq K] (V : Type v) where
  raw : RawAssoc K V
  wf : raw.Wf

namespace Assoc

variable {K : Type u} [DecidableEq K] {V : Type v} {W : Type w}

def empty : Assoc K V := ⟨.empty, RawAssoc.empty_wf⟩

def singleton (k : K) (v : V) : Assoc K V :=
  ⟨.singleton k v, RawAssoc.singleton_wf k v⟩

def append (store : Assoc K V) (k : K) (v : V) : Assoc K V :=
  ⟨store.raw.append k v, RawAssoc.append_wf store.wf k v⟩

def concatWith (f : V → V → V) (store1 store2 : Assoc K V) : Assoc K V :=
  ⟨.concatWith f store1.raw store2.raw,
    RawAssoc.concatWith_wf f store1.wf store2.wf⟩

def find (store : Assoc K V) (k : K) : Option V := store.raw.find k

def remove (store : Assoc K V) (k : K) : Except String (Assoc K V) :=
  match hremove : store.raw.remove k with
  | .ok raw => .ok ⟨raw, RawAssoc.remove_wf store.wf hremove⟩
  | .error message => .error message

def map (f : V → W) (store : Assoc K V) : Assoc K W :=
  ⟨store.raw.map f, RawAssoc.map_wf f store.wf⟩

/-- The entries in the order in which their keys were added. -/
def entries (store : Assoc K V) : List (K × V) :=
  store.raw.keys.toList.filterMap fun k => (store.raw.smap k).map fun v => (k, v)

def listItems (store : Assoc K V) : List V :=
  store.entries.map Prod.snd

def collect (f : V → W) (store : Assoc K V) : List W :=
  store.listItems.map f

def collectPartial (f : V → Option W) (store : Assoc K V) : List W :=
  store.listItems.filterMap f

theorem listItems_eq (store : Assoc K V) :
    store.listItems = store.raw.keys.toList.filterMap store.raw.smap := by
  rw [listItems, entries, List.map_filterMap]
  congr
  funext k
  cases store.raw.smap k <;> rfl

theorem mem_entries_iff (store : Assoc K V) (k : K) (v : V) :
    (k, v) ∈ store.entries ↔ store.find k = some v := by
  simp only [entries, List.mem_filterMap, Option.map_eq_some_iff,
    Prod.mk.injEq, find, RawAssoc.find]
  constructor
  · rintro ⟨k', -, v', hv, rfl, rfl⟩
    exact hv
  · intro hv
    exact ⟨k, (store.wf.dom k).mpr (by simp [hv]), v, hv, rfl, rfl⟩

theorem entries_keys (store : Assoc K V) :
    store.entries.map Prod.fst = store.raw.keys.toList := by
  rw [entries, List.map_filterMap]
  have hsome : ∀ k ∈ store.raw.keys.toList, (store.raw.smap k).isSome :=
    fun k hk => (store.wf.dom k).mp hk
  revert hsome
  induction store.raw.keys.toList with
  | nil => simp
  | cons key rest ih =>
    intro hsome
    obtain ⟨v, hv⟩ := Option.isSome_iff_exists.mp (hsome key List.mem_cons_self)
    rw [List.filterMap_cons]
    simp only [hv, Option.map_some]
    rw [ih fun k hk => hsome k (List.mem_cons_of_mem key hk)]

theorem find_append (store : Assoc K V) (k k' : K) (v : V) :
    (store.append k v).find k' = if k' = k then some v else store.find k' := by
  simp [append, find, RawAssoc.append, RawAssoc.find, Function.update_apply]

theorem find_empty (k : K) : (empty : Assoc K V).find k = none := rfl

theorem find_singleton (k k' : K) (v : V) :
    (singleton k v).find k' = if k' = k then some v else none := by
  simp [singleton, find, RawAssoc.singleton, RawAssoc.find,
    Function.update_apply]

theorem find_map (f : V → W) (store : Assoc K V) (k : K) :
    (store.map f).find k = (store.find k).map f := rfl

theorem find_concatWith (f : V → V → V) (store1 store2 : Assoc K V) (k : K) :
    (concatWith f store1 store2).find k =
      RawAssoc.unionWith f store1.find store2.find k := rfl

theorem entries_singleton (k : K) (v : V) :
    (singleton k v).entries = [(k, v)] := by
  simp [entries, singleton, RawAssoc.singleton, Keys.toList]

/-- A new key goes to the end. -/
theorem entries_append_new (store : Assoc K V) {k : K} (v : V)
    (hnew : store.find k = none) :
    (store.append k v).entries = store.entries ++ [(k, v)] := by
  have hnot : k ∉ store.raw.keys.toList := by
    rw [store.wf.dom]
    simpa [find, RawAssoc.find] using hnew
  have hsmap : store.raw.smap k = none := hnew
  simp only [entries, append, RawAssoc.append, hsmap, Option.isSome_none,
    Bool.false_eq_true, ↓reduceIte, Keys.toList, List.filterMap_append]
  congr 1
  · apply List.filterMap_congr
    intro k' hk'
    have hne : k' ≠ k := fun heq => hnot (heq ▸ hk')
    simp [hne]
  · simp

theorem find_remove {store store' : Assoc K V} {k : K}
    (hremove : store.remove k = .ok store') (k' : K) :
    store'.find k' = if k' = k then none else store.find k' := by
  unfold remove at hremove
  split at hremove
  · next raw hraw =>
      cases hremove
      unfold RawAssoc.remove at hraw
      split at hraw
      · cases hraw
        simp [find, RawAssoc.find, Function.update_apply]
      · cases hraw
  · cases hremove

theorem entries_remove {store store' : Assoc K V} {k : K}
    (hremove : store.remove k = .ok store') :
    store'.entries = store.entries.filter fun entry => entry.1 ≠ k := by
  unfold remove at hremove
  split at hremove
  · next raw hraw =>
      cases hremove
      unfold RawAssoc.remove at hraw
      split at hraw
      · cases hraw
        simp only [entries, Keys.toList_rmKey _ _ store.wf.nodup]
        rw [List.filterMap_filter, List.filter_filterMap]
        apply List.filterMap_congr
        intro k' _
        by_cases heq : k' = k
        · cases hsmap : store.raw.smap k <;> simp [heq, hsmap, Option.filter]
        · cases hsmap : store.raw.smap k' <;> simp [heq, hsmap, Option.filter]
      · cases hraw
  · cases hremove

/-- Each key occurs once. -/
theorem entries_keys_nodup (store : Assoc K V) :
    (store.entries.map Prod.fst).Nodup := by
  rw [entries_keys]
  exact store.wf.nodup

theorem ext_raw {store store' : Assoc K V} (hraw : store.raw = store'.raw) :
    store = store' := by
  cases store
  cases store'
  simp_all

/-- `map` commutes with a merge whose choice it does not change. -/
theorem map_concatWith (g : V → W) (f : V → V → V) (f' : W → W → W)
    (hcomm : ∀ x y, g (f x y) = f' (g x) (g y)) (store1 store2 : Assoc K V) :
    (concatWith f store1 store2).map g =
      concatWith f' (store1.map g) (store2.map g) := by
  apply ext_raw
  simp only [map, concatWith, RawAssoc.map, RawAssoc.concatWith,
    RawAssoc.mk.injEq, and_true]
  funext k
  simp only [RawAssoc.unionWith]
  cases store1.raw.smap k <;> cases store2.raw.smap k <;> simp [hcomm]

/-- The entries determine what is found. -/
theorem find_congr {store store' : Assoc K V}
    (hentries : store.entries = store'.entries) (k : K) :
    store.find k = store'.find k := by
  apply Option.ext
  intro v
  rw [← mem_entries_iff, ← mem_entries_iff, hentries]

theorem keys_concatWith (f : V → V → V) (store1 store2 : Assoc K V) :
    (concatWith f store1 store2).raw.keys.toList = store1.raw.keys.toList ++
        store2.raw.keys.toList.filter (· ∉ store1.raw.keys.toList) := by
  simp only [concatWith, RawAssoc.concatWith, Keys.toList,
    Keys.toList_keysMinus _ _ store2.wf.nodup]

/-- The entries of a merge are determined by the entries merged. -/
theorem entries_concatWith_congr (f : V → V → V)
    {store1 store1' store2 store2' : Assoc K V}
    (hentries1 : store1.entries = store1'.entries)
    (hentries2 : store2.entries = store2'.entries) :
    (concatWith f store1 store2).entries =
      (concatWith f store1' store2').entries := by
  have hkeys : (concatWith f store1 store2).raw.keys.toList =
      (concatWith f store1' store2').raw.keys.toList := by
    rw [keys_concatWith, keys_concatWith, ← entries_keys, ← entries_keys,
      ← entries_keys, ← entries_keys, hentries1, hentries2]
  have hfind : ∀ k, (concatWith f store1 store2).raw.smap k =
      (concatWith f store1' store2').raw.smap k := by
    intro k
    have hunion : RawAssoc.unionWith f store1.find store2.find k =
        RawAssoc.unionWith f store1'.find store2'.find k := by
      simp only [RawAssoc.unionWith, find_congr hentries1, find_congr hentries2]
    exact hunion
  rw [entries, entries, hkeys]
  simp only [hfind]

theorem entries_concatWith_empty (f : V → V → V) (store : Assoc K V) :
    (concatWith f empty store).entries = store.entries := by
  have hkeys : (concatWith f empty store).raw.keys.toList =
      store.raw.keys.toList := by
    rw [keys_concatWith]
    simp [empty, RawAssoc.empty, Keys.toList]
  rw [entries, entries, hkeys]
  rfl

theorem map_singleton (g : V → W) (k : K) (v : V) :
    (singleton k v).map g = singleton k (g v) := by
  apply ext_raw
  simp only [map, singleton, RawAssoc.map, RawAssoc.singleton,
    RawAssoc.mk.injEq, and_true]
  funext k'
  by_cases hkey : k' = k <;> simp [hkey]

theorem listItems_map (g : V → W) (store : Assoc K V) :
    (store.map g).listItems = store.collect g := by
  rw [collect, listItems_eq, listItems_eq, List.map_filterMap]
  rfl

end Assoc

end LoadFile

end SmlSharp
