/-
What any sequence of operations on the loader's store builds: the entries in
the order in which their keys were first added.
-/
import SmlSharp.Lib.KeyedList
import SmlSharp.LoadFile.Assoc

namespace SmlSharp

namespace LoadFile

universe u v w

namespace RawAssoc

variable {K : Type u} {V : Type v} {W B : Type w}

/-- `keysFoldr` with a look-up of every key, which raises where there is none. -/
def fold (message : String) (f : K → V → B → B) (z : B) (store : RawAssoc K V) :
    Except String B :=
  Keys.keysFoldr
    (fun k z => match z, store.smap k with
      | .error e, _ => .error e
      | .ok z, some v => .ok (f k v z)
      | .ok _, none => .error message)
    (.ok z) store.keys

def listItems (store : RawAssoc K V) : Except String (List V) :=
  store.fold "Assoc.listItems" (fun _ v z => v :: z) []

def collectPartial (f : V → Option W) (store : RawAssoc K V) : Except String (List W) :=
  store.fold "Assoc.collectPartial" (fun _ v z => match f v with
    | some w => w :: z
    | none => z) []

/-- The entries that `format` prints. -/
def formatItems (store : RawAssoc K V) : Except String (List (K × V)) :=
  store.fold "NotFound" (fun k v z => (k, v) :: z) []

end RawAssoc

/-! ### Entries in the order of insertion -/

section Entries

variable {K : Type u} [DecidableEq K] {V : Type v}

def lookup (k : K) (entries : List (K × V)) : Option V :=
  (KeyedList.find id k entries).map Prod.snd

/-- The value of a key with another value that may be there. -/
def combine (f : V → V → V) (v : V) : Option V → V
  | some v' => f v v'
  | none => v

/-- The left entries, those with a shared key combined, and then the right
entries with new keys. -/
def merge (f : V → V → V) (left right : List (K × V)) : List (K × V) :=
  (left.map fun entry => (entry.1, combine f entry.2 (lookup entry.1 right))) ++
    right.filter fun entry => entry.1 ∉ left.map Prod.fst

omit [DecidableEq K] in
theorem keys_eq (entries : List (K × V)) :
    KeyedList.keys id entries = entries.map Prod.fst := rfl

theorem lookup_isSome_iff {k : K} {entries : List (K × V)} :
    (lookup k entries).isSome ↔ k ∈ entries.map Prod.fst := by
  rw [lookup, Option.isSome_map, KeyedList.find_isSome_iff, keys_eq]

theorem lookup_eq_none_iff {k : K} {entries : List (K × V)} :
    lookup k entries = none ↔ k ∉ entries.map Prod.fst := by
  rw [← lookup_isSome_iff, Option.not_isSome_iff_eq_none]

theorem lookup_cons (k : K) (entry : K × V) (entries : List (K × V)) :
    lookup k (entry :: entries) =
      if entry.1 = k then some entry.2 else lookup k entries := by
  by_cases hkey : entry.1 = k
  · rw [if_pos hkey, lookup, KeyedList.find, if_pos (show id entry.1 = k from hkey)]
    rfl
  · rw [if_neg hkey, lookup, KeyedList.find, if_neg (show ¬ id entry.1 = k from hkey), lookup]

theorem lookup_append (k : K) (left right : List (K × V)) :
    lookup k (left ++ right) = (lookup k left).or (lookup k right) := by
  induction left with
  | nil => rfl
  | cons entry left ih =>
    rw [List.cons_append, lookup_cons, lookup_cons, ih]
    split <;> rfl

/-- A map over the entries that keeps their keys. -/
theorem lookup_map {W : Type v} (g : K → V → W) (k : K) (entries : List (K × V)) :
    lookup k (entries.map fun entry => (entry.1, g entry.1 entry.2)) =
      (lookup k entries).map (g k) := by
  induction entries with
  | nil => rfl
  | cons entry entries ih =>
    rw [List.map_cons, lookup_cons, lookup_cons, ih]
    by_cases hkey : entry.1 = k
    · rw [if_pos hkey, if_pos hkey, hkey]
      rfl
    · rw [if_neg hkey, if_neg hkey]

/-- A selection by the key. -/
theorem lookup_filter (p : K → Bool) (k : K) (entries : List (K × V)) :
    lookup k (entries.filter fun entry => p entry.1) =
      if p k then lookup k entries else none := by
  induction entries with
  | nil => simp [lookup]
  | cons entry entries ih =>
    rw [List.filter_cons, lookup_cons]
    by_cases hkey : entry.1 = k
    · by_cases hp : p k
      · rw [hkey, if_pos hp, lookup_cons, if_pos hkey, if_pos hp, if_pos rfl]
      · rw [hkey, if_neg hp, ih, if_neg hp, if_neg hp]
    · rw [if_neg hkey, ← ih]
      split
      · rw [lookup_cons, if_neg hkey]
      · rfl

end Entries

/-! ### Runs of operations -/

section Runs

variable {K : Type u} [DecidableEq K]

/-- A store that operations have built, with its entries in order. -/
inductive Built : {V : Type v} → RawAssoc K V → List (K × V) → Prop
  | empty {V : Type v} : Built (RawAssoc.empty : RawAssoc K V) []
  | singleton {V : Type v} (k : K) (v : V) : Built (.singleton k v) [(k, v)]
  | append {V : Type v} {store : RawAssoc K V} {entries : List (K × V)}
      (hbuilt : Built store entries) (k : K) (v : V) :
      Built (store.append k v) (KeyedList.insert id k v entries)
  | concatWith {V : Type v} (f : V → V → V) {store1 store2 : RawAssoc K V}
      {entries1 entries2 : List (K × V)} (hbuilt1 : Built store1 entries1)
      (hbuilt2 : Built store2 entries2) :
      Built (.concatWith f store1 store2) (merge f entries1 entries2)
  | remove {V : Type v} {store store' : RawAssoc K V} {entries : List (K × V)}
      (hbuilt : Built store entries) {k : K} (hremove : store.remove k = .ok store') :
      Built store' (entries.filter fun entry => entry.1 ≠ k)
  | map {V W : Type v} (f : V → W) {store : RawAssoc K V} {entries : List (K × V)}
      (hbuilt : Built store entries) :
      Built (store.map f) (KeyedList.mapValues f entries)

/-- The keys and the map of a store agree with its entries. -/
structure Represents {V : Type v} (store : RawAssoc K V) (entries : List (K × V)) :
    Prop where
  keys : store.keys.toList = entries.map Prod.fst
  nodup : (entries.map Prod.fst).Nodup
  find : ∀ k, store.smap k = lookup k entries

variable {V W : Type v} {store store' : RawAssoc K V} {entries : List (K × V)}

theorem Represents.wf (h : Represents store entries) : store.Wf where
  nodup := h.keys ▸ h.nodup
  dom k := by rw [h.keys, h.find, lookup_isSome_iff]

theorem Represents.singleton (k : K) (v : V) :
    Represents (.singleton k v) [(k, v)] where
  keys := rfl
  nodup := List.nodup_singleton k
  find k' := by
    rw [lookup_cons]
    change Function.update (fun _ => none) k (some v) k' = _
    rw [Function.update_apply]
    simp only [eq_comm]
    rfl

theorem lookup_insert (k : K) (v : V) (k' : K) (entries : List (K × V)) :
    lookup k' (KeyedList.insert id k v entries) =
      if k' = k then some v else lookup k' entries := by
  rw [lookup, KeyedList.find_insert]
  by_cases hkey : k' = k
  · rw [if_pos hkey, if_pos (show id k = k' from hkey.symm)]
    rfl
  · rw [if_neg hkey, if_neg (show ¬ id k = k' from Ne.symm hkey), lookup]

/-- A new key goes to the end, and an old one keeps its place. -/
theorem keys_insert (k : K) (v : V) (entries : List (K × V)) :
    (KeyedList.insert id k v entries).map Prod.fst =
      if k ∈ entries.map Prod.fst then entries.map Prod.fst
      else entries.map Prod.fst ++ [k] := by
  induction entries with
  | nil => rfl
  | cons entry entries ih =>
    by_cases hkey : entry.1 = k
    · rw [KeyedList.insert, if_pos (show id entry.1 = id k from hkey), List.map_cons,
        List.map_cons, hkey, if_pos List.mem_cons_self]
    · rw [KeyedList.insert, if_neg (show ¬ id entry.1 = id k from hkey), List.map_cons, ih,
        List.map_cons]
      simp only [List.mem_cons, Ne.symm hkey, false_or]
      split <;> rfl

theorem Represents.append (h : Represents store entries) (k : K) (v : V) :
    Represents (store.append k v) (KeyedList.insert id k v entries) where
  keys := by
    rw [keys_insert, ← h.keys, RawAssoc.append]
    by_cases hsome : (store.smap k).isSome
    · rw [if_pos hsome, if_pos ((h.wf.dom k).mpr hsome)]
    · rw [if_neg hsome, if_neg fun hmem => hsome ((h.wf.dom k).mp hmem)]
      rfl
  nodup := @KeyedList.keys_insert_nodup _ _ _ _ id k v entries h.nodup
  find k' := by
    rw [lookup_insert, ← h.find]
    exact Function.update_apply store.smap k (some v) k'

theorem keys_merge (f : V → V → V) (left right : List (K × V)) :
    (merge f left right).map Prod.fst = left.map Prod.fst ++
        (right.map Prod.fst).filter (· ∉ left.map Prod.fst) := by
  rw [merge, List.map_append, List.map_map, List.filter_map]
  rfl

theorem lookup_merge (f : V → V → V) (left right : List (K × V)) (k : K) :
    lookup k (merge f left right) =
      RawAssoc.unionWith f (fun k => lookup k left) (fun k => lookup k right) k := by
  rw [merge, lookup_append,
    lookup_map (fun k v => combine f v (lookup k right)),
    lookup_filter (fun k => decide (k ∉ left.map Prod.fst)), RawAssoc.unionWith]
  cases hleft : lookup k left with
  | none =>
    rw [if_pos (decide_eq_true (lookup_eq_none_iff.mp hleft))]
    rfl
  | some v =>
    cases lookup k right <;> rfl

theorem Represents.concatWith (f : V → V → V) {store1 store2 : RawAssoc K V}
    {entries1 entries2 : List (K × V)} (h1 : Represents store1 entries1)
    (h2 : Represents store2 entries2) :
    Represents (.concatWith f store1 store2) (merge f entries1 entries2) := by
  have hkeys : (RawAssoc.concatWith f store1 store2).keys.toList =
      (merge f entries1 entries2).map Prod.fst := by
    rw [keys_merge, ← h1.keys, ← h2.keys]
    exact congrArg (store1.keys.toList ++ ·) (Keys.toList_keysMinus _ _ h2.wf.nodup)
  have hwf := RawAssoc.concatWith_wf f h1.wf h2.wf
  refine ⟨hkeys, hkeys ▸ hwf.nodup, fun k => ?_⟩
  rw [lookup_merge, ← funext h1.find, ← funext h2.find]
  rfl

theorem Represents.remove (h : Represents store entries) {k : K}
    (hremove : store.remove k = .ok store') :
    Represents store' (entries.filter fun entry => entry.1 ≠ k) := by
  have hwf := RawAssoc.remove_wf h.wf hremove
  unfold RawAssoc.remove at hremove
  split at hremove
  · cases hremove
    have hkeys : (Keys.rmKey k store.keys).toList =
        (entries.filter fun entry => entry.1 ≠ k).map Prod.fst := by
      rw [Keys.toList_rmKey _ _ h.wf.nodup, h.keys, List.filter_map]
      rfl
    refine ⟨hkeys, hkeys ▸ hwf.nodup, fun k' => ?_⟩
    rw [lookup_filter (fun k' => decide (k' ≠ k)), ← h.find]
    change Function.update store.smap k none k' = _
    rw [Function.update_apply]
    by_cases hkey : k' = k
    · rw [if_pos hkey, if_neg (by simp [hkey])]
    · rw [if_neg hkey, if_pos (by simp [hkey])]
  · cases hremove

theorem Represents.map (f : V → W) (h : Represents store entries) :
    Represents (store.map f) (KeyedList.mapValues f entries) where
  keys := h.keys.trans (@KeyedList.keys_mapValues _ _ _ _ id f entries).symm
  nodup := by
    have hkeys : (KeyedList.mapValues f entries).map Prod.fst = entries.map Prod.fst :=
      @KeyedList.keys_mapValues _ _ _ _ id f entries
    rw [hkeys]
    exact h.nodup
  find k := by
    rw [KeyedList.mapValues, lookup_map (fun _ => f), ← h.find]
    rfl

theorem Built.represents (hbuilt : Built store entries) : Represents store entries := by
  induction hbuilt with
  | empty => exact ⟨rfl, List.nodup_nil, fun _ => rfl⟩
  | singleton k v => exact Represents.singleton k v
  | append _ k v ih => exact ih.append k v
  | concatWith f _ _ ih1 ih2 => exact Represents.concatWith f ih1 ih2
  | remove _ hremove ih => exact ih.remove hremove
  | map f _ ih => exact ih.map f

theorem Represents.find_of_mem (h : Represents store entries) {entry : K × V}
    (hentry : entry ∈ entries) : store.smap entry.1 = some entry.2 := by
  have hfind : KeyedList.find id entry.1 entries = some entry :=
    @KeyedList.find_of_mem K V K _ id _ h.nodup _ hentry
  rw [h.find, lookup, hfind]
  rfl

/-- In a fold over the keys of a store every look-up succeeds. -/
theorem Represents.fold {B : Type w} (h : Represents store entries) (message : String)
    (f : K → V → B → B) (z : B) :
    store.fold message f z = .ok (entries.foldr (fun entry => f entry.1 entry.2) z) := by
  have hfind : ∀ entry ∈ entries, store.smap entry.1 = some entry.2 :=
    fun entry => h.find_of_mem
  rw [RawAssoc.fold, Keys.keysFoldr_eq_foldr, h.keys]
  clear h
  induction entries with
  | nil => rfl
  | cons entry entries ih =>
    have hrest := ih fun entry' hentry' => hfind entry' (List.mem_cons_of_mem _ hentry')
    rw [List.map_cons, List.foldr_cons, hrest, hfind entry List.mem_cons_self]
    rfl

theorem Represents.listItems (h : Represents store entries) :
    store.listItems = .ok (entries.map Prod.snd) := by
  rw [RawAssoc.listItems, h.fold]
  exact congrArg Except.ok (List.map_eq_foldr).symm

theorem Represents.collect {W : Type w} (h : Represents store entries) (f : V → W) :
    store.collect f = .ok ((entries.map Prod.snd).map f) := by
  have hitems : store.keys.toList.filterMap store.smap = entries.map Prod.snd := by
    rw [h.keys, List.filterMap_map, ← List.filterMap_eq_map]
    apply List.filterMap_congr
    intro entry hentry
    exact h.find_of_mem hentry
  rw [RawAssoc.collect_eq f h.wf, hitems]

theorem Represents.collectPartial {W : Type w} (h : Represents store entries)
    (f : V → Option W) :
    store.collectPartial f = .ok ((entries.map Prod.snd).filterMap f) := by
  rw [RawAssoc.collectPartial, h.fold]
  clear h
  congr 1
  induction entries with
  | nil => rfl
  | cons entry entries ih =>
    rw [List.foldr_cons, ih, List.map_cons, List.filterMap_cons]
    cases f entry.2 <;> rfl

theorem Represents.formatItems (h : Represents store entries) :
    store.formatItems = .ok entries := by
  rw [RawAssoc.formatItems, h.fold]
  exact congrArg Except.ok ((List.map_eq_foldr).symm.trans (List.map_id entries))

theorem Represents.remove_isOk (h : Represents store entries) (k : K) :
    (∃ store', store.remove k = .ok store') ↔ k ∈ entries.map Prod.fst := by
  rw [← h.keys, h.wf.dom, RawAssoc.remove]
  by_cases hsome : (store.smap k).isSome
  · simp [hsome]
  · simp [hsome]

end Runs

/-- Whatever operations have built a store, its keys are those of the map, each
once and in the order of insertion, the folds over them raise nothing, and
`remove` raises `Bug` only for a key that is not there. -/
theorem built_inOrder {K : Type u} [DecidableEq K] {V : Type v} {store : RawAssoc K V}
    {entries : List (K × V)} (hbuilt : Built store entries) :
    store.keys.toList = entries.map Prod.fst ∧ (entries.map Prod.fst).Nodup ∧
      (∀ k, k ∈ store.keys.toList ↔ (store.find k).isSome) ∧
      (∀ k, store.find k = lookup k entries) ∧
      store.listItems = .ok (entries.map Prod.snd) ∧
      (∀ (W : Type v) (f : V → W), store.collect f = .ok ((entries.map Prod.snd).map f)) ∧
      (∀ (W : Type v) (f : V → Option W),
        store.collectPartial f = .ok ((entries.map Prod.snd).filterMap f)) ∧
      store.formatItems = .ok entries ∧
      ∀ k, (∃ store', store.remove k = .ok store') ↔ k ∈ entries.map Prod.fst := by
  have h := hbuilt.represents
  exact ⟨h.keys, h.nodup, h.wf.dom, h.find, h.listItems, fun _ => h.collect,
    fun _ => h.collectPartial, h.formatItems, h.remove_isOk⟩

/-- Two stores that share a key are joined, and then a key is removed. -/
theorem built_inOrder_joined :
    ∃ store : RawAssoc Nat Nat,
      (RawAssoc.concatWith (· + ·) ((RawAssoc.singleton 3 10).append 1 20)
        ((RawAssoc.singleton 2 30).append 3 40)).remove 1 = .ok store ∧
      store.listItems = .ok [50, 30] := by
  refine ⟨_, rfl, ?_⟩
  have hleft := (Built.singleton 3 10).append 1 20
  have hright := (Built.singleton 2 30).append 3 40
  have hbuilt := Built.remove (Built.concatWith (· + ·) hleft hright) (k := 1) rfl
  exact (built_inOrder hbuilt).2.2.2.2.1

end LoadFile

end SmlSharp
