/-
The compilation of a switch over strings into tests of the length and of single
characters: the trie of its constants and the code that is emitted for it.
-/
import Mathlib.Data.List.Perm.Basic
import Mathlib.Data.UInt

namespace SmlSharp

namespace SwitchCompile

abbrev Str := List UInt8

/-- The constants of the emitted switches, `INT32` and `CHAR`. -/
inductive Const where
  | int32 (n : Nat)
  | char (c : UInt8)
deriving DecidableEq

/-- `String_size` and `String_sub_unsafe` of the variable that holds the key. -/
inductive Scrutinee where
  | stringSize
  | stringSub (idx : Nat)

/-- The emitted expressions, with the branch bodies and the jump to the default
label as the leaves. -/
inductive Exp (β : Type) where
  | exp (body : β)
  | throw
  | switch (scrutinee : Scrutinee) (branches : List (Const × Exp β))
      (default : Exp β)

/-- The emitted code: the default alone, or the switch over the value of the key
expression, inside the catch of the default label. -/
inductive Code (σ β : Type) where
  | exp (body : β)
  | catch (keyExp : σ) (tryExp : Exp β) (catchExp : β)

inductive Tree (β : Type) where
  | leaf (pat : Str) (exp : β)
  | branch (pat : Str) (next : List (Nat × Tree β))

inductive Trie (β : Type) where
  | empty
  | trees (trees : List (Nat × Tree β))

variable {σ β : Type}

/-- The first index at which the strings differ, if there is one before the end
of either. -/
def commonPrefix : Str → Str → Option Nat
  | c1 :: str1, c2 :: str2 =>
    if c1 = c2 then do
      let i ← commonPrefix str1 str2
      return i + 1
    else
      return 0
  | _, _ => none

/-- The two entries of a map, in the order of their keys. -/
def twoEntries (k1 : Nat) (t1 : Tree β) (k2 : Nat) (t2 : Tree β) :
    List (Nat × Tree β) :=
  if k1 < k2 then [(k1, t1), (k2, t2)]
  else if k1 = k2 then [(k2, t2)]
  else [(k2, t2), (k1, t1)]

def join (key1 : Str) (t1 : Tree β) (key2 : Str) (t2 : Tree β) :
    Option (Tree β) := do
  let i ← commonPrefix key1 key2
  let c1 ← key1[i]?
  let c2 ← key2[i]?
  return .branch (key1.take i) (twoEntries c1.toNat t1 c2.toNat t2)

mutual

/-- `insert'`; no result is an exception, `Bug` or `Subscript`. -/
def insertTree : Tree β → Str → β → Option (Tree β)
  | .leaf pat e, key, exp =>
    if key = pat then none else join pat (.leaf pat e) key (.leaf key exp)
  | .branch pat next, key, exp =>
    if pat <+: key then do
      let c ← key[pat.length]?
      let next ← insertBranch next c.toNat key exp
      return .branch pat next
    else
      join pat (.branch pat next) key (.leaf key exp)

/-- The search of the entry and its insertion, in one walk over the map. -/
def insertBranch : List (Nat × Tree β) → Nat → Str → β →
    Option (List (Nat × Tree β))
  | [], nextKey, key, exp => return [(nextKey, .leaf key exp)]
  | (k, t) :: rest, nextKey, key, exp =>
    if nextKey < k then return (nextKey, .leaf key exp) :: (k, t) :: rest
    else if nextKey = k then do
      let t ← insertTree t key exp
      return (k, t) :: rest
    else do
      let rest ← insertBranch rest nextKey key exp
      return (k, t) :: rest

end

def insert : Trie β → Str → β → Option (Trie β)
  | .empty, key, exp => return .trees [(key.length, .leaf key exp)]
  | .trees ts, key, exp => do
      let ts ← insertBranch ts key.length key exp
      return .trees ts

/-- `Match`: the tests of the characters from `idx` on. -/
def matchFrom (pat : Str) (idx : Nat) (matchedExp defaultExp : Exp β) :
    Option (Exp β) :=
  if pat.length = idx then some matchedExp
  else
    match h : pat[idx]? with
    | none => none
    | some c =>
      have : idx < pat.length := (List.getElem?_eq_some_iff.mp h).1
      (matchFrom pat (idx + 1) matchedExp defaultExp).map fun rest =>
        .switch (.stringSub idx) [(.char c, rest)] defaultExp
termination_by pat.length - idx

mutual

def emitTree : Tree β → Nat → Exp β → Option (Exp β)
  | .leaf pat exp, idx, defaultExp => matchFrom pat idx (.exp exp) defaultExp
  | .branch pat next, idx, defaultExp => do
      let branches ← emitBranches next (pat.length + 1) defaultExp
      matchFrom pat idx (.switch (.stringSub pat.length) branches defaultExp)
        defaultExp

def emitBranches : List (Nat × Tree β) → Nat → Exp β →
    Option (List (Const × Exp β))
  | [], _, _ => return []
  | (c, t) :: rest, idx, defaultExp => do
      let exp ← emitTree t idx defaultExp
      let rest ← emitBranches rest idx defaultExp
      return (.char (UInt8.ofNat c), exp) :: rest

end

def emitTrees : List (Nat × Tree β) → Option (List (Const × Exp β))
  | [] => return []
  | (len, t) :: rest => do
      let exp ← emitTree t 0 .throw
      let rest ← emitTrees rest
      return (.int32 len, exp) :: rest

def emit (trie : Trie β) (keyExp : σ) (defaultExp : β) : Option (Code σ β) :=
  match trie with
  | .empty => return .exp defaultExp
  | .trees trees => do
      let branches ← emitTrees trees
      return .catch keyExp (.switch .stringSize branches .throw) defaultExp

def insertAll (branches : List (Str × β)) (trie : Trie β) : Option (Trie β) :=
  branches.foldlM (fun trie branch => insert trie branch.1 branch.2) trie

def compileStringSwitch (switchExp : σ) (branches : List (Str × β))
    (defaultExp : β) : Option (Code σ β) := do
  let trie ← insertAll branches .empty
  emit trie switchExp defaultExp

/-! ### What the code does -/

/-- The body that runs, if the code does not jump to the default label, and the
indices of the characters that are read. -/
structure Run (β : Type) where
  result : Option β
  reads : List Nat

section Runs

-- The key; `beyond` is what the memory behind the string holds.
variable (key : Str) (beyond : Nat → UInt8)

def Scrutinee.value : Scrutinee → Const
  | .stringSize => .int32 key.length
  | .stringSub idx => .char (key.getD idx (beyond idx))

def Scrutinee.reads : Scrutinee → List Nat
  | .stringSize => []
  | .stringSub idx => [idx]

mutual

def Exp.run : Exp β → Run β
  | .exp body => ⟨some body, []⟩
  | .throw => ⟨none, []⟩
  | .switch scrutinee branches default =>
    let chosen :=
      match runBranches (scrutinee.value key beyond) branches with
      | some run => run
      | none => default.run
    ⟨chosen.result, scrutinee.reads ++ chosen.reads⟩

def runBranches (value : Const) : List (Const × Exp β) → Option (Run β)
  | [] => none
  | (const, exp) :: rest =>
    if value = const then some exp.run else runBranches value rest

end

/-- The body that the whole code runs, and the characters read, when the key
expression has the value `key`. -/
def Code.run : Code σ β → β × List Nat
  | .exp body => (body, [])
  | .catch _ tryExp catchExp =>
    let run := tryExp.run key beyond
    (run.result.getD catchExp, run.reads)

end Runs

mutual

/-- The branch bodies that occur in the code. -/
def Exp.bodies : Exp β → List β
  | .exp body => [body]
  | .throw => []
  | .switch _ branches default => bodiesBranches branches ++ default.bodies

def bodiesBranches : List (Const × Exp β) → List β
  | [] => []
  | (_, exp) :: rest => exp.bodies ++ bodiesBranches rest

end

def Code.bodies : Code σ β → List β
  | .exp body => [body]
  | .catch _ tryExp catchExp => tryExp.bodies ++ [catchExp]

/-! ### The trie -/

mutual

def Tree.entries : Tree β → List (Str × β)
  | .leaf pat exp => [(pat, exp)]
  | .branch _ next => entriesBranches next

def entriesBranches : List (Nat × Tree β) → List (Str × β)
  | [] => []
  | (_, t) :: rest => t.entries ++ entriesBranches rest

end

theorem mem_entriesBranches {entry : Str × β} {next : List (Nat × Tree β)} :
    entry ∈ entriesBranches next ↔ ∃ child ∈ next, entry ∈ child.2.entries := by
  induction next with
  | nil => simp [entriesBranches]
  | cons child rest ih => simp [entriesBranches, ih]

/-- The strings of a tree have one length and begin with `pre`; those below a
node begin with its pattern, and the next character tells the subtrees apart. -/
inductive Tree.Inv (len : Nat) : Str → Tree β → Prop where
  | leaf {pre pat : Str} {exp : β} (hpre : pre <+: pat)
      (hlen : pat.length = len) : Tree.Inv len pre (.leaf pat exp)
  | branch {pre pat : Str} {next : List (Nat × Tree β)} (hpre : pre <+: pat)
      (hlen : pat.length < len)
      (hsorted : next.Pairwise fun left right => left.1 < right.1)
      (hchar : ∀ child ∈ next, child.1 < 256)
      (hnext : ∀ child ∈ next,
        Tree.Inv len (pat ++ [UInt8.ofNat child.1]) child.2) :
      Tree.Inv len pre (.branch pat next)

def Tree.pat : Tree β → Str
  | .leaf pat _ => pat
  | .branch pat _ => pat

variable {len : Nat} {pre : Str} {t : Tree β} {str : Str} {i : Nat} {key : Str} {idx : Nat}
  {branches : List (Const × Exp β)} {trie : Trie β}

theorem Tree.Inv.of_prefix {pre' : Str}
    (h : t.Inv len pre) (hpre' : pre' <+: t.pat) : t.Inv len pre' := by
  cases h with
  | leaf hpre hlen => exact .leaf hpre' hlen
  | branch hpre hlen hsorted hchar hnext =>
    exact .branch hpre' hlen hsorted hchar hnext

theorem Tree.Inv.of_mem (h : t.Inv len pre) :
    ∀ entry ∈ t.entries, pre <+: entry.1 ∧ entry.1.length = len := by
  induction h with
  | leaf hpre hlen =>
    intro entry hmem
    cases List.mem_singleton.mp hmem
    exact ⟨hpre, hlen⟩
  | branch hpre hlen hsorted hchar hnext ih =>
    intro entry hmem
    obtain ⟨child, hchild, hentry⟩ := mem_entriesBranches.mp hmem
    have ⟨hbelow, hentryLen⟩ := ih child hchild entry hentry
    exact ⟨hpre.trans ((List.prefix_append _ _).trans hbelow), hentryLen⟩

/-- Strings that differ: the prefix up to the first difference. -/
theorem commonPrefix_spec {key1 key2 : Str} (hnot : ¬ key1 <+: key2)
    (hlen : key1.length ≤ key2.length) :
    ∃ i c1 c2, commonPrefix key1 key2 = some i ∧ key1[i]? = some c1 ∧
      key2[i]? = some c2 ∧ c1 ≠ c2 ∧ key1.take i = key2.take i := by
  induction key1 generalizing key2 with
  | nil => exact absurd List.nil_prefix hnot
  | cons c1 str1 ih =>
    cases key2 with
    | nil => simp at hlen
    | cons c2 str2 =>
      by_cases heq : c1 = c2
      · subst heq
        have hrest : ¬ str1 <+: str2 := fun h =>
          hnot (List.prefix_cons_inj c1 |>.mpr h)
        obtain ⟨i, d1, d2, hi, hd1, hd2, hne, htake⟩ :=
          ih hrest (Nat.le_of_succ_le_succ hlen)
        exact ⟨i + 1, d1, d2, by simp [commonPrefix, hi], hd1, hd2, hne,
          by simp [htake]⟩
      · exact ⟨0, c1, c2, by simp [commonPrefix, heq], rfl, rfl, heq, rfl⟩

theorem getElem?_of_isPrefixOf (hpre : pre <+: str)
    (hi : i < pre.length) : str[i]? = pre[i]? := by
  obtain ⟨rest, rfl⟩ := hpre
  exact List.getElem?_append_left hi

theorem prefix_take (hpre : pre <+: str)
    (hi : pre.length ≤ i) : pre <+: str.take i := by
  rw [List.prefix_take_iff]
  exact ⟨hpre, hi⟩

theorem take_append_getElem {c : UInt8}
    (h : str[i]? = some c) : str.take i ++ [c] <+: str := by
  obtain ⟨hi, rfl⟩ := List.getElem?_eq_some_iff.mp h
  rw [List.take_append_getElem]
  exact List.take_prefix _ _

/-- Two trees whose patterns differ become the subtrees of one. -/
theorem join_spec {key1 key2 : Str} {t1 t2 : Tree β}
    (hpre1 : pre <+: key1) (hpre2 : pre <+: key2)
    (hnot : ¬ key1 <+: key2) (hlen : key1.length ≤ key2.length)
    (hlen2 : key2.length ≤ len) (ht1 : t1.Inv len pre) (hkey1 : t1.pat = key1)
    (ht2 : t2.Inv len pre) (hkey2 : t2.pat = key2) :
    ∃ t, join key1 t1 key2 t2 = some t ∧ t.Inv len pre ∧
      t.entries.Perm (t2.entries ++ t1.entries) := by
  obtain ⟨i, c1, c2, hi, hc1, hc2, hne, htake⟩ := commonPrefix_spec hnot hlen
  have hlt1 := (List.getElem?_eq_some_iff.mp hc1).1
  have hprei : pre <+: key1.take i := by
    refine prefix_take hpre1 ?_
    by_contra hlt
    rw [Nat.not_le] at hlt
    rw [getElem?_of_isPrefixOf hpre1 hlt] at hc1
    rw [getElem?_of_isPrefixOf hpre2 hlt] at hc2
    exact hne (Option.some.inj (hc1.symm.trans hc2))
  have hnat : c1.toNat ≠ c2.toNat := fun h => hne (UInt8.toNat_inj.mp h)
  have hb1 : c1.toNat < 256 := c1.toNat_lt
  have hb2 : c2.toNat < 256 := c2.toNat_lt
  have hinv1 : t1.Inv len (key1.take i ++ [c1]) := by
    refine ht1.of_prefix ?_
    rw [hkey1]
    exact take_append_getElem hc1
  have hinv2 : t2.Inv len (key1.take i ++ [c2]) := by
    rw [htake]
    refine ht2.of_prefix ?_
    rw [hkey2]
    exact take_append_getElem hc2
  have hlt : (key1.take i).length < len := by
    rw [List.length_take]
    omega
  have hjoin : join key1 t1 key2 t2 =
      some (.branch (key1.take i) (twoEntries c1.toNat t1 c2.toNat t2)) := by
    simp [join, hi, hc1, hc2]
  refine ⟨_, hjoin, ?_⟩
  unfold twoEntries
  split
  · next hc =>
    refine ⟨.branch hprei hlt (by simpa using hc) ?_ ?_, ?_⟩
    · simpa using ⟨hb1, hb2⟩
    · simpa using ⟨hinv1, hinv2⟩
    · simpa [Tree.entries, entriesBranches] using List.perm_append_comm
  · refine ⟨.branch hprei hlt ?_ ?_ ?_, ?_⟩
    · simp
      omega
    · simpa using ⟨hb2, hb1⟩
    · simpa using ⟨hinv2, hinv1⟩
    · simp [Tree.entries, entriesBranches]

/-- The walk over a map, when the insertion into the subtree of the key is
right; `Sub` is what holds of the subtrees. -/
theorem insertBranch_spec (Sub : Nat → Tree β → Prop) (nextKey : Nat)
    (key : Str) (exp : β) (next : List (Nat × Tree β))
    (hsorted : next.Pairwise fun left right => left.1 < right.1)
    (hnext : ∀ child ∈ next, Sub child.1 child.2)
    (hleaf : Sub nextKey (.leaf key exp))
    (hinsert : ∀ child ∈ next, child.1 = nextKey →
      ∃ t, insertTree child.2 key exp = some t ∧ Sub nextKey t ∧
        t.entries.Perm ((key, exp) :: child.2.entries)) :
    ∃ next', insertBranch next nextKey key exp = some next' ∧
      next'.Pairwise (fun left right => left.1 < right.1) ∧
      (∀ child ∈ next', Sub child.1 child.2) ∧
      (∀ child ∈ next', child.1 = nextKey ∨ ∃ old ∈ next, child.1 = old.1) ∧
      (entriesBranches next').Perm ((key, exp) :: entriesBranches next) := by
  induction next with
  | nil =>
    refine ⟨_, rfl, by simp, by simpa using hleaf, by simp, ?_⟩
    exact List.Perm.refl _
  | cons child rest ih =>
    obtain ⟨k, t⟩ := child
    obtain ⟨hhead, hrest⟩ := List.pairwise_cons.mp hsorted
    unfold insertBranch
    by_cases hlt : nextKey < k
    · rw [if_pos hlt]
      refine ⟨_, rfl, ?_, ?_, ?_, List.Perm.refl _⟩
      · refine List.pairwise_cons.mpr ⟨?_, hsorted⟩
        intro child hchild
        rcases List.mem_cons.mp hchild with rfl | hchild
        · exact hlt
        · exact Nat.lt_trans hlt (hhead child hchild)
      · intro child hchild
        rcases List.mem_cons.mp hchild with rfl | hchild
        · exact hleaf
        · exact hnext child hchild
      · intro child hchild
        rcases List.mem_cons.mp hchild with rfl | hchild
        · exact .inl rfl
        · exact .inr ⟨child, hchild, rfl⟩
    · rw [if_neg hlt]
      by_cases heq : nextKey = k
      · subst heq
        obtain ⟨t', ht', hsub, hperm⟩ := hinsert _ List.mem_cons_self rfl
        rw [if_pos rfl, ht']
        refine ⟨_, rfl, ?_, ?_, ?_, ?_⟩
        · exact List.pairwise_cons.mpr ⟨hhead, hrest⟩
        · intro child hchild
          rcases List.mem_cons.mp hchild with rfl | hchild
          · exact hsub
          · exact hnext child (List.mem_cons_of_mem _ hchild)
        · intro child hchild
          rcases List.mem_cons.mp hchild with rfl | hchild
          · exact .inl rfl
          · exact .inr ⟨child, List.mem_cons_of_mem _ hchild, rfl⟩
        · exact hperm.append_right (entriesBranches rest)
      · rw [if_neg heq]
        obtain ⟨next', hnext', hsorted', hsub', hkeys', hperm'⟩ :=
          ih hrest (fun child hchild => hnext child (List.mem_cons_of_mem _ hchild))
            (fun child hchild => hinsert child (List.mem_cons_of_mem _ hchild))
        rw [hnext']
        refine ⟨_, rfl, ?_, ?_, ?_, ?_⟩
        · refine List.pairwise_cons.mpr ⟨?_, hsorted'⟩
          intro child hchild
          rcases hkeys' child hchild with hkey | ⟨old, hold, hkey⟩
          · simp only [hkey]
            omega
          · simp only [hkey]
            exact hhead old hold
        · intro child hchild
          rcases List.mem_cons.mp hchild with rfl | hchild
          · exact hnext _ List.mem_cons_self
          · exact hsub' child hchild
        · intro child hchild
          rcases List.mem_cons.mp hchild with rfl | hchild
          · exact .inr ⟨_, List.mem_cons_self, rfl⟩
          · rcases hkeys' child hchild with hkey | ⟨old, hold, hkey⟩
            · exact .inl hkey
            · exact .inr ⟨old, List.mem_cons_of_mem _ hold, hkey⟩
        · exact (hperm'.append_left t.entries).trans List.perm_middle

theorem insertTree_spec (h : t.Inv len pre) (exp : β) (hpre : pre <+: key)
    (hlen : key.length = len) (hnew : ∀ entry ∈ t.entries, entry.1 ≠ key) :
    ∃ t', insertTree t key exp = some t' ∧ t'.Inv len pre ∧
      t'.entries.Perm ((key, exp) :: t.entries) := by
  induction h with
  | @leaf pre pat e hpat hpatLen =>
    have hne : key ≠ pat := (hnew (pat, e) (List.mem_singleton_self _)).symm
    have hnot : ¬ pat <+: key := fun hstart =>
      hne (hstart.eq_of_length (hpatLen.trans hlen.symm)).symm
    rw [insertTree, if_neg hne]
    exact join_spec hpat hpre hnot (by omega) (by omega) (.leaf hpat hpatLen) rfl
      (.leaf hpre hlen) rfl
  | @branch pre pat next hpat hpatLen hsorted hchar hnext ih =>
    rw [insertTree]
    by_cases hprefix : pat <+: key
    · obtain ⟨c, hc⟩ : ∃ c, key[pat.length]? = some c :=
        ⟨_, List.getElem?_eq_getElem (by omega)⟩
      have hbelow : pat ++ [c] <+: key := by
        have htake := take_append_getElem hc
        rwa [← List.prefix_iff_eq_take.mp hprefix] at htake
      have hcNat : UInt8.ofNat c.toNat = c := UInt8.ofNat_toNat
      obtain ⟨next', hnext', hsorted', hsub', -, hperm'⟩ :=
        insertBranch_spec
          (fun k t => k < 256 ∧ t.Inv len (pat ++ [UInt8.ofNat k]))
          c.toNat key exp next hsorted (fun child hchild =>
            ⟨hchar child hchild, hnext child hchild⟩)
          ⟨c.toNat_lt, .leaf (by rwa [hcNat]) hlen⟩
          (fun child hchild hkey => by
            obtain ⟨t', ht', hinv, hperm⟩ := ih child hchild
              (by rwa [hkey, hcNat])
              (fun entry hentry => hnew entry
                (mem_entriesBranches.mpr ⟨child, hchild, hentry⟩))
            exact ⟨t', ht', ⟨c.toNat_lt, by rwa [← hkey]⟩, hperm⟩)
      rw [if_pos hprefix, hc]
      refine ⟨.branch pat next', by simp [hnext'], ?_, hperm'⟩
      exact .branch hpat hpatLen hsorted' (fun child hchild => (hsub' child hchild).1)
        (fun child hchild => (hsub' child hchild).2)
    · rw [if_neg hprefix]
      exact join_spec hpat hpre hprefix (by omega) (by omega)
        (.branch hpat hpatLen hsorted hchar hnext) rfl (.leaf hpre hlen) rfl

/-! ### The emitted code -/

/-- The run has the body of the key's entry, or none if the key has no entry,
and reads within the key. -/
structure Selects (entries : List (Str × β)) (key : Str) (run : Run β) : Prop where
  found : ∀ exp, (key, exp) ∈ entries → run.result = some exp
  missing : (∀ entry ∈ entries, entry.1 ≠ key) → run.result = none
  inside : ∀ i ∈ run.reads, i < key.length

theorem run_test (key : Str) (beyond : Nat → UInt8) (idx : Nat) (c : UInt8)
    (exp : Exp β) :
    (Exp.switch (.stringSub idx) [(.char c, exp)] .throw).run key beyond =
      if key.getD idx (beyond idx) = c then
        ⟨(exp.run key beyond).result, idx :: (exp.run key beyond).reads⟩
      else ⟨none, [idx]⟩ := by
  by_cases hchar : key.getD idx (beyond idx) = c
  · simp only [Exp.run, runBranches, Scrutinee.value, Scrutinee.reads,
      Const.char.injEq, if_pos hchar]
    rfl
  · simp only [Exp.run, runBranches, Scrutinee.value, Scrutinee.reads,
      Const.char.injEq, if_neg hchar]
    rfl

/-- A prefix and the next character. -/
theorem prefix_take_succ {pat : Str} {c : UInt8}
    (hpre : pat.take idx <+: key) (hpat : pat[idx]? = some c)
    (hkey : key[idx]? = some c) : pat.take (idx + 1) <+: key := by
  obtain ⟨hidx, -⟩ := List.getElem?_eq_some_iff.mp hpat
  have htake : pat.take idx = key.take idx := by
    have heq := List.prefix_iff_eq_take.mp hpre
    rwa [List.length_take, Nat.min_eq_left (Nat.le_of_lt hidx)] at heq
  rw [List.take_add_one, hpat, htake]
  exact take_append_getElem hkey

/-- The tests of a pattern: the matched code runs when the rest of the pattern
is there, and nothing is read behind it. -/
theorem matchFrom_spec (pat : Str) (matched : Exp β) (idx : Nat)
    (hidx : idx ≤ pat.length) :
    ∃ code, matchFrom pat idx matched .throw = some code ∧
      code.bodies = matched.bodies ∧
      ∀ key beyond, pat.length ≤ key.length → pat.take idx <+: key →
        (pat <+: key →
          (code.run key beyond).result = (matched.run key beyond).result) ∧
        (¬ pat <+: key → (code.run key beyond).result = none) ∧
        ∀ i ∈ (code.run key beyond).reads,
          i < pat.length ∨ (pat <+: key ∧ i ∈ (matched.run key beyond).reads) := by
  induction hn : pat.length - idx generalizing idx with
  | zero =>
    have heq : pat.length = idx := by omega
    rw [matchFrom, if_pos heq]
    refine ⟨matched, rfl, rfl, fun key beyond hlen hpre => ?_⟩
    have hpat : pat <+: key := by rwa [← heq, List.take_length] at hpre
    exact ⟨fun _ => rfl, fun hnot => absurd hpat hnot, fun i hi => .inr ⟨hpat, hi⟩⟩
  | succ n ih =>
    have hlt : idx < pat.length := by omega
    obtain ⟨rest, hrest, hbodies, hrun⟩ := ih (idx + 1) (by omega) (by omega)
    rw [matchFrom, if_neg (by omega)]
    split
    · next hnone =>
      have hle := List.getElem?_eq_none_iff.mp hnone
      omega
    · next c hc =>
      rw [hrest]
      refine ⟨_, rfl, ?_, fun key beyond hlen hpre => ?_⟩
      · simpa [Exp.bodies, bodiesBranches] using hbodies
      · have hkey : key[idx]? = some (key.getD idx (beyond idx)) := by
          rw [List.getD_eq_getElem?_getD, List.getElem?_eq_getElem (by omega)]
          rfl
        rw [run_test]
        by_cases hchar : key.getD idx (beyond idx) = c
        · rw [hchar] at hkey
          rw [if_pos hchar]
          have ⟨hmatch, hmiss, hreads⟩ :=
            hrun key beyond hlen (prefix_take_succ hpre hc hkey)
          refine ⟨hmatch, hmiss, fun i hi => ?_⟩
          rcases List.mem_cons.mp hi with rfl | hi
          · exact .inl hlt
          · exact hreads i hi
        · have hnot : ¬ pat <+: key := by
            intro hpat
            rw [getElem?_of_isPrefixOf hpat hlt, hc] at hkey
            exact hchar (Option.some.inj hkey).symm
          rw [if_neg hchar]
          refine ⟨fun hpat => absurd hpat hnot, fun _ => rfl, fun i hi => ?_⟩
          cases List.mem_singleton.mp hi
          exact .inl hlt

/-- The branches that are emitted for the entries of a map. -/
def Emitted (toConst : Nat → Const) (idx : Nat) (next : List (Nat × Tree β))
    (branches : List (Const × Exp β)) : Prop :=
  List.Forall₂
    (fun child branch => branch.1 = toConst child.1 ∧
      emitTree child.2 idx .throw = some branch.2) next branches

theorem emitBranches_emitted (next : List (Nat × Tree β)) (idx : Nat)
    (h : ∀ child ∈ next, ∃ code, emitTree child.2 idx .throw = some code) :
    ∃ branches, emitBranches next idx .throw = some branches ∧
      Emitted (fun c => .char (UInt8.ofNat c)) idx next branches := by
  induction next with
  | nil => exact ⟨[], rfl, .nil⟩
  | cons child rest ih =>
    obtain ⟨code, hcode⟩ := h child List.mem_cons_self
    obtain ⟨branches, hbranches, hemitted⟩ :=
      ih fun child hchild => h child (List.mem_cons_of_mem _ hchild)
    exact ⟨(.char (UInt8.ofNat child.1), code) :: branches,
      by simp [emitBranches, hcode, hbranches], .cons ⟨rfl, hcode⟩ hemitted⟩

theorem emitTrees_emitted {trees : List (Nat × Tree β)}
    (h : ∀ child ∈ trees, ∃ code, emitTree child.2 0 .throw = some code) :
    ∃ branches, emitTrees trees = some branches ∧
      Emitted .int32 0 trees branches := by
  induction trees with
  | nil => exact ⟨[], rfl, .nil⟩
  | cons child rest ih =>
    obtain ⟨code, hcode⟩ := h child List.mem_cons_self
    obtain ⟨branches, hbranches, hemitted⟩ :=
      ih fun child hchild => h child (List.mem_cons_of_mem _ hchild)
    exact ⟨(.int32 child.1, code) :: branches,
      by simp [emitTrees, hcode, hbranches], .cons ⟨rfl, hcode⟩ hemitted⟩

theorem Emitted.bodies {toConst : Nat → Const} {next : List (Nat × Tree β)}
    (h : Emitted toConst idx next branches)
    (hbodies : ∀ child ∈ next, ∀ code, emitTree child.2 idx .throw = some code →
      code.bodies = child.2.entries.map Prod.snd) :
    bodiesBranches branches = (entriesBranches next).map Prod.snd := by
  induction h with
  | nil => rfl
  | cons hhead _ ih =>
    rw [bodiesBranches, entriesBranches, List.map_append,
      hbodies _ List.mem_cons_self _ hhead.2,
      ih fun child hchild => hbodies child (List.mem_cons_of_mem _ hchild)]

/-- The value chooses the subtree of its key, or there is none. -/
theorem Emitted.run {toConst : Nat → Const} {idx : Nat}
    {next : List (Nat × Tree β)} {branches : List (Const × Exp β)}
    (h : Emitted toConst idx next branches) (key : Str) (beyond : Nat → UInt8)
    (value : Const) : (runBranches key beyond value branches = none ∧
      ∀ child ∈ next, toConst child.1 ≠ value) ∨
    ∃ child ∈ next, toConst child.1 = value ∧
      ∃ code, emitTree child.2 idx .throw = some code ∧
        runBranches key beyond value branches = some (code.run key beyond) := by
  induction h with
  | nil => exact .inl ⟨rfl, by simp⟩
  | @cons child branch next branches hhead _ ih =>
    obtain ⟨const, exp⟩ := branch
    rw [runBranches]
    by_cases heq : value = const
    · rw [if_pos heq]
      exact .inr ⟨child, List.mem_cons_self, by rw [heq]; exact hhead.1.symm,
        exp, hhead.2, rfl⟩
    · rw [if_neg heq]
      rcases ih with ⟨hnone, hkeys⟩ | ⟨child', hchild', hfound⟩
      · refine .inl ⟨hnone, fun child' hchild' => ?_⟩
        rcases List.mem_cons.mp hchild' with rfl | hchild'
        · exact fun h => heq (h.symm.trans hhead.1.symm)
        · exact hkeys child' hchild'
      · exact .inr ⟨child', List.mem_cons_of_mem _ hchild', hfound⟩

theorem eq_of_sorted {next : List (Nat × Tree β)}
    (hsorted : next.Pairwise fun left right => left.1 < right.1)
    {child child' : Nat × Tree β} (hchild : child ∈ next) (hchild' : child' ∈ next)
    (heq : child.1 = child'.1) : child = child' := by
  have hnodup : (next.map Prod.fst).Nodup :=
    List.pairwise_map.mpr (hsorted.imp Nat.ne_of_lt)
  exact List.inj_on_of_nodup_map hnodup hchild hchild' heq

/-- A choice between subtrees, by something that the entries' strings decide. -/
theorem Emitted.selects {toConst : Nat → Const} {next : List (Nat × Tree β)}
    {beyond : Nat → UInt8} {scrutinee : Scrutinee}
    (h : Emitted toConst idx next branches)
    (hsorted : next.Pairwise fun left right => left.1 < right.1)
    (hinj : ∀ child ∈ next, ∀ child' ∈ next,
      toConst child.1 = toConst child'.1 → child.1 = child'.1)
    (hdecides : ∀ child ∈ next, ∀ entry ∈ child.2.entries, entry.1 = key →
      toConst child.1 = scrutinee.value key beyond)
    (hreads : ∀ i ∈ scrutinee.reads, i < key.length)
    (hrun : ∀ child ∈ next, toConst child.1 = scrutinee.value key beyond →
      ∀ code, emitTree child.2 idx .throw = some code →
        Selects child.2.entries key (code.run key beyond)) :
    Selects (entriesBranches next) key
      ((Exp.switch scrutinee branches .throw).run key beyond) := by
  rw [Exp.run]
  rcases h.run key beyond (scrutinee.value key beyond) with
    ⟨hnone, hkeys⟩ | ⟨child, hchild, hkey, code, hcode, hsome⟩
  · rw [hnone]
    refine ⟨fun exp hmem => ?_, fun _ => rfl, ?_⟩
    · obtain ⟨child, hchild, hentry⟩ := mem_entriesBranches.mp hmem
      exact absurd (hdecides child hchild _ hentry rfl) (hkeys child hchild)
    · simpa [Exp.run] using hreads
  · rw [hsome]
    have ⟨hfound, hmissing, hinside⟩ := hrun child hchild hkey code hcode
    refine ⟨fun exp hmem => ?_, fun hnot => ?_, fun i hi => ?_⟩
    · obtain ⟨child', hchild', hentry⟩ := mem_entriesBranches.mp hmem
      have hsame := hdecides child' hchild' _ hentry rfl
      have heq := eq_of_sorted hsorted hchild' hchild
        (hinj child' hchild' child hchild (hsame.trans hkey.symm))
      rw [heq] at hentry
      exact hfound exp hentry
    · exact hmissing fun entry hentry =>
        hnot entry (mem_entriesBranches.mpr ⟨child, hchild, hentry⟩)
    · rcases List.mem_append.mp hi with hi | hi
      · exact hreads i hi
      · exact hinside i hi

/-- The code of a tree, for keys of its length that begin with what has been
tested. -/
theorem emitTree_spec (h : t.Inv len pre) :
    ∃ code, emitTree t pre.length .throw = some code ∧
      code.bodies = t.entries.map Prod.snd ∧
      ∀ key beyond, key.length = len → pre <+: key →
        Selects t.entries key (code.run key beyond) := by
  induction h with
  | @leaf pre pat exp hpre hlen =>
    obtain ⟨code, hcode, hbodies, hrun⟩ := matchFrom_spec pat (.exp exp)
      pre.length hpre.length_le
    refine ⟨code, hcode, hbodies, fun key beyond hkey hkeyPre => ?_⟩
    have htake : pat.take pre.length <+: key := by
      rwa [← List.prefix_iff_eq_take.mp hpre]
    have ⟨hmatch, hmiss, hreads⟩ := hrun key beyond (by omega) htake
    refine ⟨fun exp' hmem => ?_, fun hnot => ?_, fun i hi => ?_⟩
    · cases List.mem_singleton.mp hmem
      rw [hmatch (List.prefix_rfl)]
      rfl
    · refine hmiss fun hpat => ?_
      exact hnot (pat, exp) (List.mem_singleton_self _)
        (hpat.eq_of_length (hlen.trans hkey.symm))
    · rcases hreads i hi with hi | ⟨-, hi⟩
      · omega
      · cases hi
  | @branch pre pat next hpre hlen hsorted hchar hnext ih =>
    have hidx : ∀ k, (pat ++ [UInt8.ofNat k]).length = pat.length + 1 := by
      simp
    obtain ⟨branches, hbranches, hemitted⟩ :=
      emitBranches_emitted next (pat.length + 1)
        fun child hchild => by
          obtain ⟨code, hcode, -⟩ := ih child hchild
          exact ⟨code, by rwa [hidx] at hcode⟩
    obtain ⟨code, hcode, hbodies, hrun⟩ := matchFrom_spec pat
      (.switch (.stringSub pat.length) branches .throw) pre.length hpre.length_le
    refine ⟨code, by simp [emitTree, hbranches, hcode], ?_, ?_⟩
    · rw [hbodies, Exp.bodies, hemitted.bodies]
      · exact List.append_nil _
      · intro child hchild code' hcode'
        obtain ⟨code'', hcode'', hbodies'', -⟩ := ih child hchild
        rw [hidx, hcode'] at hcode''
        cases hcode''
        exact hbodies''
    · intro key beyond hkey hkeyPre
      have htake : pat.take pre.length <+: key := by
        rwa [← List.prefix_iff_eq_take.mp hpre]
      have ⟨hmatch, hmiss, hreads⟩ := hrun key beyond (by omega) htake
      have hbelow : ∀ child ∈ next, ∀ entry ∈ child.2.entries,
          pat ++ [UInt8.ofNat child.1] <+: entry.1 :=
        fun child hchild entry hentry =>
          ((hnext child hchild).of_mem entry hentry).1
      by_cases hpat : pat <+: key
      · have hat : key[pat.length]? = some (key.getD pat.length (beyond pat.length)) := by
          rw [List.getD_eq_getElem?_getD, List.getElem?_eq_getElem (by omega)]
          rfl
        have hselects : Selects (entriesBranches next) key
            ((Exp.switch (.stringSub pat.length) branches .throw).run key beyond) := by
          refine hemitted.selects hsorted ?_ ?_ ?_ ?_
          · intro child hchild child' hchild' heq
            have hofNat := Const.char.inj heq
            have hnat := congrArg UInt8.toNat hofNat
            rwa [UInt8.toNat_ofNat_of_lt' (hchar child hchild),
              UInt8.toNat_ofNat_of_lt' (hchar child' hchild')] at hnat
          · rintro child hchild entry hentry rfl
            have hchars := getElem?_of_isPrefixOf (hbelow child hchild entry hentry)
              (i := pat.length) (by simp)
            rw [hat, List.getElem?_concat_length] at hchars
            rw [Scrutinee.value, Option.some.inj hchars]
          · simp [Scrutinee.reads]
            omega
          · intro child hchild heq code' hcode'
            obtain ⟨code'', hcode'', -, hrun''⟩ := ih child hchild
            rw [hidx, hcode'] at hcode''
            cases hcode''
            refine hrun'' key beyond hkey ?_
            rw [Const.char.inj heq]
            have hnext' := take_append_getElem hat
            rwa [← List.prefix_iff_eq_take.mp hpat] at hnext'
        have ⟨hfound, hmissing, hinside⟩ := hselects
        refine ⟨fun exp hmem => ?_, fun hnot => ?_, fun i hi => ?_⟩
        · rw [hmatch hpat]
          exact hfound exp hmem
        · rw [hmatch hpat]
          exact hmissing hnot
        · rcases hreads i hi with hi | ⟨-, hi⟩
          · omega
          · exact hinside i hi
      · refine ⟨fun exp hmem => ?_, fun _ => hmiss hpat, fun i hi => ?_⟩
        · obtain ⟨child, hchild, hentry⟩ := mem_entriesBranches.mp hmem
          exact absurd ((List.prefix_append _ _).trans
            (hbelow child hchild _ hentry)) hpat
        · rcases hreads i hi with hi | ⟨hpat', -⟩
          · omega
          · exact absurd hpat' hpat

/-! ### The whole switch -/

def Trie.entries : Trie β → List (Str × β)
  | .empty => []
  | .trees ts => entriesBranches ts

/-- The trees of a trie hold the strings of one length each. -/
def Trie.Inv : Trie β → Prop
  | .empty => True
  | .trees ts =>
    ts.Pairwise (fun left right => left.1 < right.1) ∧
      ∀ child ∈ ts, child.2.Inv child.1 []

theorem insert_spec (h : trie.Inv) (key : Str) (exp : β)
    (hnew : ∀ entry ∈ trie.entries, entry.1 ≠ key) :
    ∃ trie', insert trie key exp = some trie' ∧ trie'.Inv ∧
      trie'.entries.Perm ((key, exp) :: trie.entries) := by
  have hleaf : (Tree.leaf key exp).Inv key.length [] := .leaf List.nil_prefix rfl
  cases trie with
  | empty =>
    refine ⟨_, rfl, ⟨List.pairwise_singleton _ _, ?_⟩, List.Perm.refl _⟩
    simpa using hleaf
  | trees trees =>
    obtain ⟨hsorted, htrees⟩ := h
    obtain ⟨next', hnext', hsorted', hsub', -, hperm'⟩ :=
      insertBranch_spec (fun len t => t.Inv len []) key.length key exp trees
        hsorted htrees hleaf
        (fun child hchild hkey => by
          obtain ⟨t', ht', hinv, hperm⟩ :=
            insertTree_spec (htrees child hchild) exp List.nil_prefix hkey.symm
              (fun entry hentry => hnew entry
                (mem_entriesBranches.mpr ⟨child, hchild, hentry⟩))
          exact ⟨t', ht', by rwa [← hkey], hperm⟩)
    exact ⟨.trees next', by simp [insert, hnext'], ⟨hsorted', hsub'⟩, hperm'⟩

theorem insertAll_spec {branches : List (Str × β)}
    (h : trie.Inv) (hnew : ((branches ++ trie.entries).map Prod.fst).Nodup) :
    ∃ trie', insertAll branches trie = some trie' ∧ trie'.Inv ∧
      trie'.entries.Perm (branches ++ trie.entries) := by
  induction branches generalizing trie with
  | nil => exact ⟨trie, rfl, h, List.Perm.refl _⟩
  | cons branch branches ih =>
    rw [List.cons_append, List.map_cons, List.nodup_cons] at hnew
    obtain ⟨hfirst, hrest⟩ := hnew
    obtain ⟨trie1, htrie1, hinv1, hperm1⟩ := insert_spec h branch.1
      branch.2 fun entry hentry heq => hfirst (by
        rw [← heq]
        exact List.mem_map_of_mem (List.mem_append_right _ hentry))
    have hperm : (branches ++ trie1.entries).Perm
        (branch :: (branches ++ trie.entries)) :=
      (hperm1.append_left branches).trans List.perm_middle
    have hnodup : ((branches ++ trie1.entries).map Prod.fst).Nodup := by
      refine (hperm.map Prod.fst).nodup_iff.mpr ?_
      exact List.nodup_cons.mpr ⟨hfirst, hrest⟩
    obtain ⟨trie', htrie', hinv', hperm'⟩ := ih hinv1 hnodup
    refine ⟨trie', ?_, hinv', hperm'.trans hperm⟩
    rw [insertAll, List.foldlM_cons, htrie1]
    exact htrie'

theorem emit_spec (h : trie.Inv) (keyExp : σ) (defaultExp : β) :
    ∃ code, emit trie keyExp defaultExp = some code ∧
      code.bodies = trie.entries.map Prod.snd ++ [defaultExp] ∧ ∀ key beyond,
        (∀ exp, (key, exp) ∈ trie.entries → (code.run key beyond).1 = exp) ∧
        ((∀ entry ∈ trie.entries, entry.1 ≠ key) →
          (code.run key beyond).1 = defaultExp) ∧
        ∀ i ∈ (code.run key beyond).2, i < key.length := by
  cases trie with
  | empty =>
    refine ⟨.exp defaultExp, rfl, rfl, fun key beyond => ⟨?_, fun _ => rfl, ?_⟩⟩
    · simp [Trie.entries]
    · simp [Code.run]
  | trees trees =>
    obtain ⟨hsorted, htrees⟩ := h
    obtain ⟨branches, hbranches, hemitted⟩ := emitTrees_emitted fun child hchild => by
      obtain ⟨code, hcode, -⟩ := emitTree_spec (htrees child hchild)
      exact ⟨code, hcode⟩
    refine ⟨_, by simp only [emit, hbranches]; rfl, ?_, fun key beyond => ?_⟩
    · rw [Code.bodies, Exp.bodies, hemitted.bodies]
      · simp [Exp.bodies, Trie.entries]
      · intro child hchild code hcode
        obtain ⟨code', hcode', hbodies', -⟩ := emitTree_spec (htrees child hchild)
        rw [List.length_nil, hcode] at hcode'
        cases hcode'
        exact hbodies'
    · have ⟨hfound, hmissing, hinside⟩ : Selects (entriesBranches trees) key
          ((Exp.switch .stringSize branches .throw).run key beyond) := by
        refine hemitted.selects hsorted ?_ ?_ ?_ ?_
        · intro child _ child' _ heq
          exact Const.int32.inj heq
        · rintro child hchild entry hentry rfl
          rw [Scrutinee.value, ((htrees child hchild).of_mem entry hentry).2]
        · simp [Scrutinee.reads]
        · intro child hchild heq code hcode
          obtain ⟨code', hcode', -, hrun'⟩ := emitTree_spec (htrees child hchild)
          rw [List.length_nil, hcode] at hcode'
          cases hcode'
          exact hrun' key beyond (Const.int32.inj heq).symm List.nil_prefix
      refine ⟨fun exp hmem => ?_, fun hnot => ?_, hinside⟩
      · rw [Code.run]
        simp only [hfound exp hmem]
        rfl
      · rw [Code.run]
        simp only [hmissing hnot]
        rfl

/-- A string switch runs the branch of the constant that is the key, or the
default; its tests read within the key, and no body is copied. -/
theorem compileStringSwitch_exact (switchExp : σ) (branches : List (Str × β))
    (defaultExp : β) (hdistinct : (branches.map Prod.fst).Nodup) :
    ∃ code, compileStringSwitch switchExp branches defaultExp = some code ∧
      code.bodies.Perm (branches.map Prod.snd ++ [defaultExp]) ∧
      ∀ key beyond,
        (∀ branch ∈ branches, branch.1 = key →
          (code.run key beyond).1 = branch.2) ∧
        ((∀ branch ∈ branches, branch.1 ≠ key) →
          (code.run key beyond).1 = defaultExp) ∧
        ∀ i ∈ (code.run key beyond).2, i < key.length := by
  obtain ⟨trie, htrie, hinv, hperm⟩ :=
    insertAll_spec (show (Trie.empty : Trie β).Inv from trivial)
      (by simpa [Trie.entries] using hdistinct)
  rw [Trie.entries, List.append_nil] at hperm
  obtain ⟨code, hcode, hbodies, hrun⟩ := emit_spec hinv switchExp defaultExp
  refine ⟨code, by rw [compileStringSwitch, htrie]; exact hcode, ?_, ?_⟩
  · rw [hbodies]
    exact (hperm.map Prod.snd).append_right _
  · intro key beyond
    have ⟨hfound, hmissing, hinside⟩ := hrun key beyond
    refine ⟨?_, fun hnot => ?_, hinside⟩
    · rintro branch hbranch rfl
      exact hfound branch.2 (hperm.mem_iff.mpr hbranch)
    · exact hmissing fun entry hentry => hnot entry (hperm.mem_iff.mp hentry)

/-- The constants `""`, `"a"`, `"ab"`, `"cb"` and `"cd"`.  The last three differ at
both places; the keys are `"cd"` and `"ad"`, which is none of them. -/
theorem compileStringSwitch_prefixes :
    ∃ code, compileStringSwitch ()
        [([], 10), ([97], 11), ([97, 98], 12), ([99, 98], 14), ([99, 100], 15)] 13 =
          some code ∧
      (code.run [99, 100] fun _ => 0).1 = 15 ∧ (code.run [97, 100] fun _ => 0).1 = 13 ∧
      ∀ i ∈ (code.run [99, 100] fun _ => 0).2, i < 2 := by
  obtain ⟨code, hcode, -, hrun⟩ := compileStringSwitch_exact ()
    [([], 10), ([97], 11), ([97, 98], 12), ([99, 98], 14), ([99, 100], 15)] 13 (by decide)
  obtain ⟨hfound, -, hinside⟩ := hrun [99, 100] fun _ => 0
  obtain ⟨-, hmissing, -⟩ := hrun [97, 100] fun _ => 0
  exact ⟨code, hcode, hfound ([99, 100], 15) (by simp) rfl, hmissing (by decide), hinside⟩

end SwitchCompile

end SmlSharp
