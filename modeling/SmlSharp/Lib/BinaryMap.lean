/-
Finite maps as balanced binary search trees over a comparison function, after
the tree functors of the standard library.  A rotation that meets a tree of the
wrong shape raises `Match`, which is `none` here.  The comparison need not be an
order: what an insertion does is stated for the keys on which it is one.
-/
import Mathlib.Data.List.Basic
import Mathlib.Data.List.Perm.Basic

namespace SmlSharp

universe u v

/-- The comparison orders the keys of one set strictly and totally. -/
structure StrictTotalOn {K : Type u} (compare : K → K → Ordering)
    (keys : K → Prop) : Prop where
  eq_iff : ∀ a b, keys a → keys b → (compare a b = .eq ↔ a = b)
  swap : ∀ a b, keys a → keys b → compare b a = (compare a b).swap
  trans : ∀ a b c, keys a → keys b → keys c →
    compare a b = .lt → compare b c = .lt → compare a c = .lt

theorem StrictTotalOn.lt_of_gt {K : Type u} {compare : K → K → Ordering}
    {keys : K → Prop} (htotal : StrictTotalOn compare keys) {a b : K}
    (ha : keys a) (hb : keys b) (hgt : compare a b = .gt) :
    compare b a = .lt := by
  rw [htotal.swap a b ha hb, hgt]
  rfl

theorem StrictTotalOn.gt_of_lt {K : Type u} {compare : K → K → Ordering}
    {keys : K → Prop} (htotal : StrictTotalOn compare keys) {a b : K}
    (ha : keys a) (hb : keys b) (hlt : compare a b = .lt) :
    compare b a = .gt := by
  rw [htotal.swap a b ha hb, hlt]
  rfl

inductive BinaryMap (K : Type u) (V : Type v) where
  | empty
  | node (key : K) (value : V) (cnt : Nat) (left right : BinaryMap K V)

namespace BinaryMap

variable {K : Type u} {V : Type v}

def numItems : BinaryMap K V → Nat
  | empty => 0
  | node _ _ cnt _ _ => cnt

def listItemsi : BinaryMap K V → List (K × V)
  | empty => []
  | node key value _ left right =>
    left.listItemsi ++ (key, value) :: right.listItemsi

/-- `N`: a node that counts its items. -/
def mkNode (key : K) (value : V) (left right : BinaryMap K V) :
    BinaryMap K V :=
  node key value (1 + left.numItems + right.numItems) left right

def singleL (a : K) (av : V) (x : BinaryMap K V) :
    BinaryMap K V → Option (BinaryMap K V)
  | node b bv _ y z => some (mkNode b bv (mkNode a av x y) z)
  | empty => none

def singleR (b : K) (bv : V) (left z : BinaryMap K V) :
    Option (BinaryMap K V) :=
  match left with
  | node a av _ x y => some (mkNode a av x (mkNode b bv y z))
  | empty => none

def doubleL (a : K) (av : V) (w : BinaryMap K V) :
    BinaryMap K V → Option (BinaryMap K V)
  | node c cv _ (node b bv _ x y) z =>
    some (mkNode b bv (mkNode a av w x) (mkNode c cv y z))
  | _ => none

def doubleR (c : K) (cv : V) (left z : BinaryMap K V) :
    Option (BinaryMap K V) :=
  match left with
  | node a av _ w (node b bv _ x y) =>
    some (mkNode b bv (mkNode a av w x) (mkNode c cv y z))
  | _ => none

def wt (i : Nat) : Nat := i + i + i

/-- `T'`: a node that is rebalanced when one side is too big. -/
def balance (key : K) (value : V) :
    BinaryMap K V → BinaryMap K V → Option (BinaryMap K V)
  | empty, empty => some (node key value 1 empty empty)
  | empty, right@(node _ _ _ empty empty) =>
    some (node key value 2 empty right)
  | left@(node _ _ _ empty empty), empty =>
    some (node key value 2 left empty)
  | empty, right@(node _ _ _ (node ..) empty) =>
    doubleL key value empty right
  | left@(node _ _ _ empty (node ..)), empty =>
    doubleR key value left empty
  | empty, right@(node _ _ _ (node _ _ ln _ _) (node _ _ rn _ _)) =>
    if ln < rn then singleL key value empty right
    else doubleL key value empty right
  | left@(node _ _ _ (node _ _ ln _ _) (node _ _ rn _ _)), empty =>
    if ln > rn then singleR key value left empty
    else doubleR key value left empty
  | empty, right@(node _ _ _ empty _) => singleL key value empty right
  | left@(node _ _ _ _ empty), empty => singleR key value left empty
  | left@(node _ _ ln ll lr), right@(node _ _ rn rl rr) =>
    if rn ≥ wt ln then
      if rl.numItems < rr.numItems then singleL key value left right
      else doubleL key value left right
    else if ln ≥ wt rn then
      if lr.numItems < ll.numItems then singleR key value left right
      else doubleR key value left right
    else some (node key value (ln + rn + 1) left right)

/-- Every node holds the number of its items. -/
def Counted : BinaryMap K V → Prop
  | empty => True
  | node _ _ cnt left right =>
    cnt = 1 + left.numItems + right.numItems ∧ left.Counted ∧ right.Counted

attribute [local simp] mkNode numItems listItemsi

variable {key : K} {value : V} {x : K} {lower upper : List (K × V)} {entry : K × V} {v : V}

theorem mkNode_counted {left right : BinaryMap K V}
    (hleft : left.Counted) (hright : right.Counted) :
    (mkNode key value left right).Counted :=
  ⟨rfl, hleft, hright⟩

/-- What every rebalancing step delivers: a counted tree with the same items in
the same order. -/
def Rebalanced (key : K) (value : V) (left right : BinaryMap K V)
    (result : Option (BinaryMap K V)) : Prop :=
  ∃ map, result = some map ∧ map.Counted ∧
    map.listItemsi = left.listItemsi ++ (key, value) :: right.listItemsi

theorem singleL_rebalanced {left right : BinaryMap K V}
    (hleft : left.Counted) (hright : right.Counted) (hne : right ≠ empty) :
    Rebalanced key value left right (singleL key value left right) := by
  cases right with
  | empty => exact absurd rfl hne
  | node b bv cnt y z =>
    refine ⟨_, rfl, mkNode_counted (mkNode_counted hleft hright.2.1)
      hright.2.2, ?_⟩
    simp

theorem singleR_rebalanced {left right : BinaryMap K V}
    (hleft : left.Counted) (hright : right.Counted) (hne : left ≠ empty) :
    Rebalanced key value left right (singleR key value left right) := by
  cases left with
  | empty => exact absurd rfl hne
  | node a av cnt x y =>
    refine ⟨_, rfl, mkNode_counted hleft.2.1 (mkNode_counted hleft.2.2
      hright), ?_⟩
    simp

theorem doubleL_rebalanced {left : BinaryMap K V}
    {c : K} {cv : V} {cnt : Nat} {inner z : BinaryMap K V}
    (hleft : left.Counted) (hright : (node c cv cnt inner z).Counted)
    (hne : inner ≠ empty) : Rebalanced key value left (node c cv cnt inner z)
      (doubleL key value left (node c cv cnt inner z)) := by
  cases inner with
  | empty => exact absurd rfl hne
  | node b bv cnt' x y =>
    obtain ⟨-, ⟨-, hx, hy⟩, hz⟩ := hright
    refine ⟨_, rfl, mkNode_counted (mkNode_counted hleft hx)
      (mkNode_counted hy hz), ?_⟩
    simp

theorem doubleR_rebalanced {right : BinaryMap K V} {av : V} {cnt : Nat} {w inner : BinaryMap K V}
    (hleft : (node a av cnt w inner).Counted) (hright : right.Counted)
    (hne : inner ≠ empty) : Rebalanced key value (node a av cnt w inner) right
      (doubleR key value (node a av cnt w inner) right) := by
  cases inner with
  | empty => exact absurd rfl hne
  | node b bv cnt' x y =>
    obtain ⟨-, hw, -, hx, hy⟩ := hleft
    refine ⟨_, rfl, mkNode_counted (mkNode_counted hw hx)
      (mkNode_counted hy hright), ?_⟩
    simp

theorem ne_empty_of_pos {map : BinaryMap K V} (hpos : 0 < map.numItems) :
    map ≠ empty := by
  intro hempty
  simp [hempty] at hpos

theorem balance_rebalanced (key : K) (value : V) (left right : BinaryMap K V)
    (hleft : left.Counted) (hright : right.Counted) :
    Rebalanced key value left right (balance key value left right) := by
  fun_cases balance key value left right with
  | case1 => exact ⟨_, rfl, ⟨rfl, trivial, trivial⟩, rfl⟩
  | case2 k v cnt =>
    have hcnt : cnt = 1 := hright.1
    exact ⟨_, rfl, ⟨by simp [hcnt], trivial, hright⟩, rfl⟩
  | case3 k v cnt =>
    have hcnt : cnt = 1 := hleft.1
    exact ⟨_, rfl, ⟨by simp [hcnt], hleft, trivial⟩, rfl⟩
  | case4 => exact doubleL_rebalanced hleft hright (by simp)
  | case5 => exact doubleR_rebalanced hleft hright (by simp)
  | case6 => exact singleL_rebalanced hleft hright (by simp)
  | case7 => exact doubleL_rebalanced hleft hright (by simp)
  | case8 => exact singleR_rebalanced hleft hright (by simp)
  | case9 => exact doubleR_rebalanced hleft hright (by simp)
  | case10 => exact singleL_rebalanced hleft hright (by simp)
  | case11 => exact singleR_rebalanced hleft hright (by simp)
  | case12 => exact singleL_rebalanced hleft hright (by simp)
  | case13 lk lv ln ll lr rk rv rn rl rr hbig hnlt =>
    have hln := hleft.1
    have hrn := hright.1
    exact doubleL_rebalanced hleft hright
      (ne_empty_of_pos (by unfold wt at hbig; omega))
  | case14 => exact singleR_rebalanced hleft hright (by simp)
  | case15 lk lv ln ll lr rk rv rn rl rr hnbig hbig hnlt =>
    have hln := hleft.1
    have hrn := hright.1
    exact doubleR_rebalanced hleft hright
      (ne_empty_of_pos (by unfold wt at hbig; omega))
  | case16 lk lv ln ll lr rk rv rn rl rr =>
    refine ⟨_, rfl, ⟨?_, hleft, hright⟩, rfl⟩
    simp
    omega

section Insert

variable (compare : K → K → Ordering)

def insert : BinaryMap K V → K → V → Option (BinaryMap K V)
  | empty, x, v => some (node x v 1 empty empty)
  | node key value cnt left right, x, v =>
    match compare key x with
    | .gt => do
        let left ← insert left x v
        balance key value left right
    | .lt => do
        let right ← insert right x v
        balance key value left right
    | .eq => some (node x v cnt left right)

/-- The map that a list of entries builds, in the order of the list. -/
def insertAll (entries : List (K × V)) : Option (BinaryMap K V) :=
  entries.foldlM (fun map entry => insert compare map entry.1 entry.2) empty

def find : BinaryMap K V → K → Option V
  | empty, _ => none
  | node key value _ left right, x =>
    match compare x key with
    | .gt => find right x
    | .lt => find left x
    | .eq => some value

/-- The items stand in strictly ascending order of their keys. -/
def Ascending (items : List (K × V)) : Prop :=
  items.Pairwise fun left right => compare left.1 right.1 = .lt

end Insert

variable {compare : K → K → Ordering} {keys : K → Prop}

/-- Inserting puts the new item between the items with smaller and the items
with larger keys. -/
def insertItems (compare : K → K → Ordering) (items : List (K × V)) (x : K)
    (v : V) : List (K × V) :=
  items.filter (fun entry => compare entry.1 x = .lt) ++
    (x, v) :: items.filter (fun entry => compare entry.1 x = .gt)

theorem filter_of_all {items : List (K × V)} {order : Ordering}
    (hall : ∀ entry ∈ items, compare entry.1 x = order) :
    items.filter (fun entry => compare entry.1 x = order) = items := by
  apply List.filter_eq_self.mpr
  intro entry hentry
  simpa using hall entry hentry

theorem filter_of_none (other : Ordering) {items : List (K × V)}
    {order : Ordering} (hall : ∀ entry ∈ items, compare entry.1 x = order)
    (hne : order ≠ other) :
    items.filter (fun entry => compare entry.1 x = other) = [] := by
  apply List.filter_eq_nil_iff.mpr
  intro entry hentry
  have horder := hall entry hentry
  simpa [horder] using hne

/-- The parts of an ascending list beside one of its entries. -/
theorem ascending_split (hasc : Ascending compare (lower ++ entry :: upper)) :
    Ascending compare lower ∧ Ascending compare upper ∧
      (∀ low ∈ lower, compare low.1 entry.1 = .lt) ∧
      (∀ high ∈ upper, compare entry.1 high.1 = .lt) := by
  obtain ⟨hlower, hrest, hcross⟩ := List.pairwise_append.mp hasc
  obtain ⟨hupper, htail⟩ := List.pairwise_cons.mp hrest
  exact ⟨hlower, htail, fun low hlow => hcross low hlow entry (by simp), hupper⟩

theorem insertItems_left (htotal : StrictTotalOn compare keys)
    (hkeys : ∀ entry ∈ lower ++ (key, value) :: upper, keys entry.1)
    (hx : keys x) (hasc : Ascending compare (lower ++ (key, value) :: upper))
    (hgt : compare key x = .gt) :
    insertItems compare (lower ++ (key, value) :: upper) x v =
      insertItems compare lower x v ++ (key, value) :: upper := by
  obtain ⟨-, -, -, hupper⟩ := ascending_split hasc
  have hkey : keys key := hkeys (key, value) (by simp)
  have hxkey : compare x key = .lt := htotal.lt_of_gt hkey hx hgt
  have habove : ∀ entry ∈ upper, compare entry.1 x = .gt := by
    intro entry hentry
    have hentryKey : keys entry.1 := hkeys entry (by simp [hentry])
    have hlt := htotal.trans x key entry.1 hx hkey hentryKey hxkey
      (hupper entry hentry)
    exact htotal.gt_of_lt hx hentryKey hlt
  simp [insertItems, hgt, filter_of_all habove,
    filter_of_none .lt habove (by decide)]

theorem insertItems_right (htotal : StrictTotalOn compare keys)
    (hkeys : ∀ entry ∈ lower ++ (key, value) :: upper, keys entry.1)
    (hx : keys x) (hasc : Ascending compare (lower ++ (key, value) :: upper))
    (hlt : compare key x = .lt) :
    insertItems compare (lower ++ (key, value) :: upper) x v =
      lower ++ (key, value) :: insertItems compare upper x v := by
  obtain ⟨-, -, hlower, -⟩ := ascending_split hasc
  have hkey : keys key := hkeys (key, value) (by simp)
  have hbelow : ∀ entry ∈ lower, compare entry.1 x = .lt := by
    intro entry hentry
    exact htotal.trans entry.1 key x (hkeys entry (by simp [hentry])) hkey hx
      (hlower entry hentry) hlt
  simp [insertItems, hlt, filter_of_all hbelow,
    filter_of_none .gt hbelow (by decide)]

theorem insertItems_same (htotal : StrictTotalOn compare keys)
    (hkeys : ∀ entry ∈ lower ++ (key, value) :: upper, keys entry.1)
    (hx : keys x) (hasc : Ascending compare (lower ++ (key, value) :: upper))
    (heq : compare key x = .eq) :
    insertItems compare (lower ++ (key, value) :: upper) x v =
      lower ++ (x, v) :: upper := by
  obtain ⟨-, -, hlower, hupper⟩ := ascending_split hasc
  have hkey : keys key := hkeys (key, value) (by simp)
  obtain rfl : key = x := (htotal.eq_iff key x hkey hx).mp heq
  have habove : ∀ entry ∈ upper, compare entry.1 key = .gt := by
    intro entry hentry
    exact htotal.gt_of_lt hkey (hkeys entry (by simp [hentry]))
      (hupper entry hentry)
  simp [insertItems, heq, filter_of_all hlower, filter_of_all habove,
    filter_of_none .gt hlower (by decide),
    filter_of_none .lt habove (by decide)]

theorem mem_insertItems {items : List (K × V)} (hmem : entry ∈ insertItems compare items x v) :
    entry = (x, v) ∨ entry ∈ items := by
  simp only [insertItems, List.mem_append, List.mem_filter, List.mem_cons]
    at hmem
  tauto

theorem insertItems_ascending {items : List (K × V)}
    (htotal : StrictTotalOn compare keys)
    (hkeys : ∀ entry ∈ items, keys entry.1) (hx : keys x)
    (hasc : Ascending compare items) :
    Ascending compare (insertItems compare items x v) := by
  apply List.pairwise_append.mpr
  refine ⟨hasc.filter _, List.pairwise_cons.mpr ⟨?_, hasc.filter _⟩, ?_⟩
  · intro entry hentry
    obtain ⟨hmem, hgt⟩ := List.mem_filter.mp hentry
    exact htotal.lt_of_gt (hkeys entry hmem) hx (by simpa using hgt)
  · intro low hlow high hhigh
    obtain ⟨hlowMem, hlt⟩ := List.mem_filter.mp hlow
    have hltx : compare low.1 x = .lt := by simpa using hlt
    rcases List.mem_cons.mp hhigh with rfl | hhigh
    · exact hltx
    · obtain ⟨hhighMem, hgt⟩ := List.mem_filter.mp hhigh
      exact htotal.trans low.1 x high.1 (hkeys low hlowMem) hx
        (hkeys high hhighMem) hltx
        (htotal.lt_of_gt (hkeys high hhighMem) hx (by simpa using hgt))

/-- Where the comparison orders the keys, an insertion succeeds and inserts
into the list of items. -/
theorem insert_spec (htotal : StrictTotalOn compare keys) (map : BinaryMap K V)
    (x : K) (v : V) (hx : keys x) (hcounted : map.Counted)
    (hkeys : ∀ entry ∈ map.listItemsi, keys entry.1)
    (hasc : Ascending compare map.listItemsi) :
    ∃ result, insert compare map x v = some result ∧ result.Counted ∧
      result.listItemsi = insertItems compare map.listItemsi x v := by
  induction map with
  | empty => exact ⟨_, rfl, ⟨rfl, trivial, trivial⟩, rfl⟩
  | node key value cnt left right ihLeft ihRight =>
    obtain ⟨hcnt, hleft, hright⟩ := hcounted
    obtain ⟨hascLeft, hascRight, -, -⟩ := ascending_split hasc
    have hkeysLeft : ∀ entry ∈ left.listItemsi, keys entry.1 :=
      fun entry hentry => hkeys entry (by simp [hentry])
    have hkeysRight : ∀ entry ∈ right.listItemsi, keys entry.1 :=
      fun entry hentry => hkeys entry (by simp [hentry])
    cases horder : compare key x with
    | gt =>
      obtain ⟨left', hinsert, hcounted', hitems⟩ :=
        ihLeft hleft hkeysLeft hascLeft
      obtain ⟨result, hbalance, hresult, hlist⟩ :=
        balance_rebalanced key value left' right hcounted' hright
      refine ⟨result, by simp [insert, horder, hinsert, hbalance], hresult,
        ?_⟩
      rw [hlist, hitems]
      exact (insertItems_left htotal hkeys hx hasc horder).symm
    | lt =>
      obtain ⟨right', hinsert, hcounted', hitems⟩ :=
        ihRight hright hkeysRight hascRight
      obtain ⟨result, hbalance, hresult, hlist⟩ :=
        balance_rebalanced key value left right' hleft hcounted'
      refine ⟨result, by simp [insert, horder, hinsert, hbalance], hresult,
        ?_⟩
      rw [hlist, hitems]
      exact (insertItems_right htotal hkeys hx hasc horder).symm
    | eq =>
      refine ⟨node x v cnt left right, by simp [insert, horder],
        ⟨hcnt, hleft, hright⟩, ?_⟩
      exact (insertItems_same htotal hkeys hx hasc horder).symm

/-- An insertion succeeds under any comparison, and its items are the inserted
one and old ones. -/
theorem insert_total (compare : K → K → Ordering) (map : BinaryMap K V) (x : K) (v : V)
    (hcounted : map.Counted) :
    ∃ result, insert compare map x v = some result ∧ result.Counted ∧
      ∀ entry ∈ result.listItemsi, entry = (x, v) ∨ entry ∈ map.listItemsi := by
  induction map with
  | empty =>
    refine ⟨_, rfl, ⟨rfl, trivial, trivial⟩, fun entry hentry => ?_⟩
    exact Or.inl (by simpa using hentry)
  | node key value cnt left right ihLeft ihRight =>
    obtain ⟨hcnt, hleft, hright⟩ := hcounted
    cases horder : compare key x with
    | gt =>
      obtain ⟨left', hinsert, hcounted', hitems⟩ := ihLeft hleft
      obtain ⟨result, hbalance, hresult, hlist⟩ :=
        balance_rebalanced key value left' right hcounted' hright
      refine ⟨result, by simp [insert, horder, hinsert, hbalance], hresult, ?_⟩
      intro entry hentry
      rw [hlist] at hentry
      rcases List.mem_append.1 hentry with hentry | hentry
      · rcases hitems entry hentry with heq | hold
        · exact Or.inl heq
        · exact Or.inr (List.mem_append_left _ hold)
      · exact Or.inr (List.mem_append_right _ hentry)
    | lt =>
      obtain ⟨right', hinsert, hcounted', hitems⟩ := ihRight hright
      obtain ⟨result, hbalance, hresult, hlist⟩ :=
        balance_rebalanced key value left right' hleft hcounted'
      refine ⟨result, by simp [insert, horder, hinsert, hbalance], hresult, ?_⟩
      intro entry hentry
      rw [hlist] at hentry
      rcases List.mem_append.1 hentry with hentry | hentry
      · exact Or.inr (List.mem_append_left _ hentry)
      · rcases List.mem_cons.1 hentry with rfl | hentry
        · exact Or.inr (List.mem_append_right _ List.mem_cons_self)
        · rcases hitems entry hentry with heq | hold
          · exact Or.inl heq
          · exact Or.inr (List.mem_append_right _ (List.mem_cons_of_mem _ hold))
    | eq =>
      refine ⟨node x v cnt left right, by simp [insert, horder], ⟨hcnt, hleft, hright⟩, ?_⟩
      intro entry hentry
      rcases List.mem_append.1 hentry with hentry | hentry
      · exact Or.inr (List.mem_append_left _ hentry)
      · rcases List.mem_cons.1 hentry with rfl | hentry
        · exact Or.inl rfl
        · exact Or.inr (List.mem_append_right _ (List.mem_cons_of_mem _ hentry))

theorem insert_isSome (compare : K → K → Ordering) {map : BinaryMap K V}
    (hcounted : map.Counted) (x : K) (v : V) :
    (insert compare map x v).isSome = true := by
  obtain ⟨result, hinsert, -⟩ := insert_total compare map x v hcounted
  rw [hinsert]
  rfl

/-- The result of an insertion into a counted tree. -/
def insertCounted (compare : K → K → Ordering) (map : { map : BinaryMap K V // map.Counted })
    (x : K) (v : V) : { map : BinaryMap K V // map.Counted } :=
  ⟨(insert compare map.1 x v).get (insert_isSome compare map.2 x v), by
    obtain ⟨result, hinsert, hcounted, -⟩ := insert_total compare map.1 x v map.2
    simpa [hinsert] using hcounted⟩

theorem mem_insertCounted {compare : K → K → Ordering}
    {map : { map : BinaryMap K V // map.Counted }}
    (hentry : entry ∈ (insertCounted compare map x v).1.listItemsi) :
    entry = (x, v) ∨ entry ∈ map.1.listItemsi := by
  obtain ⟨result, hinsert, -, hitems⟩ := insert_total compare map.1 x v map.2
  refine hitems entry ?_
  simpa [insertCounted, hinsert] using hentry

theorem foldlM_insert_total (compare : K → K → Ordering) (entries : List (K × V))
    (map : BinaryMap K V) (hcounted : map.Counted) : ∃ result, entries.foldlM
        (fun map entry => insert compare map entry.1 entry.2) map = some result ∧
      ∀ entry ∈ result.listItemsi, entry ∈ entries ∨ entry ∈ map.listItemsi := by
  induction entries generalizing map with
  | nil => exact ⟨map, rfl, fun entry hentry => Or.inr hentry⟩
  | cons entry rest ih =>
    obtain ⟨next, hinsert, hnext, hitems⟩ := insert_total compare map entry.1 entry.2 hcounted
    obtain ⟨result, hrun, hmem⟩ := ih next hnext
    refine ⟨result, by simp [List.foldlM_cons, hinsert, hrun], ?_⟩
    intro other hother
    rcases hmem other hother with hrest | hold
    · exact Or.inl (List.mem_cons_of_mem _ hrest)
    · rcases hitems other hold with rfl | hold
      · exact Or.inl List.mem_cons_self
      · exact Or.inr hold

theorem insertAll_total (compare : K → K → Ordering) (entries : List (K × V)) :
    ∃ result, insertAll compare entries = some result ∧
      ∀ entry ∈ result.listItemsi, entry ∈ entries := by
  obtain ⟨result, hrun, hmem⟩ := foldlM_insert_total compare entries empty trivial
  refine ⟨result, hrun, fun entry hentry => ?_⟩
  rcases hmem entry hentry with hentry | hentry
  · exact hentry
  · cases hentry

theorem insertItems_perm {items : List (K × V)}
    (htotal : StrictTotalOn compare keys)
    (hkeys : ∀ entry ∈ items, keys entry.1) (hx : keys x)
    (hnew : ∀ entry ∈ items, entry.1 ≠ x) :
    (insertItems compare items x v).Perm ((x, v) :: items) := by
  have hnot : ∀ entry ∈ items, decide (compare entry.1 x = .gt) =
      !decide (compare entry.1 x = .lt) := by
    intro entry hentry
    have hne : compare entry.1 x ≠ .eq := fun heq =>
      hnew entry hentry ((htotal.eq_iff _ _ (hkeys entry hentry) hx).mp heq)
    cases horder : compare entry.1 x with
    | lt => rfl
    | eq => exact absurd horder hne
    | gt => rfl
  have hsplit : (items.filter (fun entry => compare entry.1 x = .lt) ++
      items.filter (fun entry => compare entry.1 x = .gt)).Perm items := by
    rw [List.filter_congr hnot]
    exact List.filter_append_perm _ _
  exact List.perm_middle.trans (hsplit.cons (x, v))

/-- A run of insertions of new and pairwise different keys. -/
theorem foldlM_insert_spec (htotal : StrictTotalOn compare keys)
    (entries : List (K × V)) (map : BinaryMap K V) (hcounted : map.Counted)
    (hkeys : ∀ entry ∈ map.listItemsi, keys entry.1)
    (hentries : ∀ entry ∈ entries, keys entry.1)
    (hasc : Ascending compare map.listItemsi)
    (hnodup : (entries.map Prod.fst).Nodup)
    (hnew : ∀ entry ∈ entries, ∀ old ∈ map.listItemsi, old.1 ≠ entry.1) :
    ∃ result, entries.foldlM
        (fun map entry => insert compare map entry.1 entry.2) map = some result ∧
      Ascending compare result.listItemsi ∧
      result.listItemsi.Perm (entries ++ map.listItemsi) := by
  induction entries generalizing map with
  | nil => exact ⟨map, rfl, hasc, List.Perm.refl _⟩
  | cons entry rest ih =>
    obtain ⟨hfresh, hrestNodup⟩ := List.nodup_cons.mp hnodup
    have hx : keys entry.1 := hentries entry (by simp)
    obtain ⟨next, hinsert, hnext, hitems⟩ :=
      insert_spec htotal map entry.1 entry.2 hx hcounted hkeys hasc
    have hmem : ∀ old ∈ next.listItemsi, old = entry ∨ old ∈ map.listItemsi := by
      intro old hold
      rw [hitems] at hold
      exact mem_insertItems hold
    have hperm : next.listItemsi.Perm (entry :: map.listItemsi) := by
      rw [hitems]
      exact insertItems_perm htotal hkeys hx (hnew entry (by simp))
    obtain ⟨result, hrun, hresult, hitems'⟩ := ih next hnext
      (by
        intro old hold
        rcases hmem old hold with rfl | hold
        · exact hx
        · exact hkeys old hold)
      (fun later hlater => hentries later (List.mem_cons_of_mem _ hlater))
      (by
        rw [hitems]
        exact insertItems_ascending htotal hkeys hx hasc)
      hrestNodup
      (by
        intro later hlater old hold
        rcases hmem old hold with rfl | hold
        · intro heq
          exact hfresh (heq ▸ List.mem_map_of_mem hlater)
        · exact hnew later (List.mem_cons_of_mem _ hlater) old hold)
    refine ⟨result, by simp [List.foldlM_cons, hinsert, hrun], hresult, ?_⟩
    refine hitems'.trans ?_
    exact (hperm.append_left rest).trans List.perm_middle

theorem insertAll_spec (htotal : StrictTotalOn compare keys)
    (entries : List (K × V)) (hentries : ∀ entry ∈ entries, keys entry.1)
    (hnodup : (entries.map Prod.fst).Nodup) :
    ∃ result, insertAll compare entries = some result ∧
      Ascending compare result.listItemsi ∧ result.listItemsi.Perm entries := by
  obtain ⟨result, hrun, hasc, hperm⟩ := foldlM_insert_spec htotal entries empty
    trivial (by simp) hentries List.Pairwise.nil hnodup
    (by simp)
  exact ⟨result, hrun, hasc, by simpa using hperm⟩

/-- Two ascending lists of the same items are equal. -/
theorem ascending_perm_eq (htotal : StrictTotalOn compare keys)
    {first second : List (K × V)} (hkeys : ∀ entry ∈ first, keys entry.1)
    (hperm : first.Perm second) (hfirst : Ascending compare first)
    (hsecond : Ascending compare second) : first = second := by
  refine List.Perm.eq_of_pairwise ?_ hfirst hsecond hperm
  intro a b ha hb hab hba
  have hgt := htotal.gt_of_lt (hkeys a ha) (hkeys b (hperm.mem_iff.mpr hb)) hab
  rw [hba] at hgt
  exact absurd hgt (by decide)

/-- The items of a map do not depend on the order of insertion. -/
theorem insertAll_perm (htotal : StrictTotalOn compare keys)
    {first second : List (K × V)} (hperm : first.Perm second)
    (hkeys : ∀ entry ∈ first, keys entry.1)
    (hnodup : (first.map Prod.fst).Nodup) :
    ∃ left right, insertAll compare first = some left ∧
      insertAll compare second = some right ∧
      left.listItemsi = right.listItemsi := by
  obtain ⟨left, hleft, hascLeft, hpermLeft⟩ :=
    insertAll_spec htotal first hkeys hnodup
  obtain ⟨right, hright, hascRight, hpermRight⟩ := insertAll_spec htotal second
    (fun entry hentry => hkeys entry (hperm.mem_iff.mpr hentry))
    ((hperm.map Prod.fst).nodup_iff.mp hnodup)
  refine ⟨left, right, hleft, hright, ascending_perm_eq htotal ?_ ?_ hascLeft
    hascRight⟩
  · intro entry hentry
    exact hkeys entry (hpermLeft.mem_iff.mp hentry)
  · exact hpermLeft.trans (hperm.trans hpermRight.symm)

/-- What a lookup finds is an item whose key compares as equal. -/
theorem mem_of_find {map : BinaryMap K V} (h : find compare map x = some v) :
    ∃ key, (key, v) ∈ map.listItemsi ∧ compare x key = .eq := by
  induction map with
  | empty => cases h
  | node key value cnt left right ihLeft ihRight =>
    unfold find at h
    split at h
    · obtain ⟨key', hmem, heq⟩ := ihRight h
      exact ⟨key', by simp [hmem], heq⟩
    · obtain ⟨key', hmem, heq⟩ := ihLeft h
      exact ⟨key', by simp [hmem], heq⟩
    · next heq =>
      cases h
      exact ⟨key, by simp, heq⟩

/-- `add` of the set functor, which compares the new item with the old one. -/
def add (compare : K → K → Ordering) :
    BinaryMap K Unit → K → Option (BinaryMap K Unit)
  | empty, x => some (node x () 1 empty empty)
  | node elt value cnt left right, x =>
    match compare x elt with
    | .lt => do
        let left ← add compare left x
        balance elt value left right
    | .gt => do
        let right ← add compare right x
        balance elt value left right
    | .eq => some (node x value cnt left right)

def addAll (compare : K → K → Ordering) (elts : List K) :
    Option (BinaryMap K Unit) :=
  elts.foldlM (fun set elt => add compare set elt) empty

theorem add_eq_insert (htotal : StrictTotalOn compare keys)
    (set : BinaryMap K Unit) (x : K) (hx : keys x)
    (hkeys : ∀ entry ∈ set.listItemsi, keys entry.1) :
    add compare set x = insert compare set x () := by
  induction set with
  | empty => rfl
  | node elt value cnt left right ihLeft ihRight =>
    have helt : keys elt := hkeys (elt, value) (by simp)
    have hleft := ihLeft
      fun entry hentry => hkeys entry (by simp [hentry])
    have hright := ihRight
      fun entry hentry => hkeys entry (by simp [hentry])
    simp only [add, insert]
    rw [htotal.swap elt x helt hx, hleft, hright]
    cases compare elt x <;> rfl

theorem foldlM_add_eq (htotal : StrictTotalOn compare keys) (elts : List K)
    (set : BinaryMap K Unit) (hcounted : set.Counted)
    (hkeys : ∀ entry ∈ set.listItemsi, keys entry.1)
    (helts : ∀ elt ∈ elts, keys elt) (hasc : Ascending compare set.listItemsi) :
    elts.foldlM (fun set elt => add compare set elt) set =
      (elts.map fun elt => (elt, ())).foldlM
        (fun set entry => insert compare set entry.1 entry.2) set := by
  induction elts generalizing set with
  | nil => rfl
  | cons elt rest ih =>
    have helt : keys elt := helts elt (by simp)
    obtain ⟨next, hinsert, hnext, hitems⟩ :=
      insert_spec htotal set elt () helt hcounted hkeys hasc
    have htail := ih next hnext
      (by
        intro entry hentry
        rw [hitems] at hentry
        rcases mem_insertItems hentry with rfl | hold
        · exact helt
        · exact hkeys entry hold)
      (fun later hlater => helts later (List.mem_cons_of_mem _ hlater))
      (by
        rw [hitems]
        exact insertItems_ascending htotal hkeys helt hasc)
    simp only [List.foldlM_cons, List.map_cons,
      add_eq_insert htotal set elt helt hkeys, hinsert]
    exact htail

/-- The items of a set do not depend on the order in which they are added. -/
theorem addAll_perm (htotal : StrictTotalOn compare keys) {first second : List K}
    (hperm : first.Perm second) (hkeys : ∀ elt ∈ first, keys elt)
    (hnodup : first.Nodup) : ∃ left right, addAll compare first = some left ∧
      addAll compare second = some right ∧
      left.listItemsi = right.listItemsi := by
  have hentries : ∀ elts : List K, (∀ elt ∈ elts, keys elt) →
      addAll compare elts = insertAll compare (elts.map fun elt => (elt, ())) :=
    fun elts helts => foldlM_add_eq htotal elts empty trivial
      (by simp) helts List.Pairwise.nil
  rw [hentries first hkeys,
    hentries second fun elt helt => hkeys elt (hperm.mem_iff.mpr helt)]
  apply insertAll_perm htotal (hperm.map _)
  · intro entry hentry
    obtain ⟨elt, helt, rfl⟩ := List.mem_map.mp hentry
    exact hkeys elt helt
  · have hkeysEq : (first.map fun elt => (elt, ())).map Prod.fst = first := by
      rw [List.map_map]
      exact List.map_id first
    rw [hkeysEq]
    exact hnodup

end BinaryMap

end SmlSharp
