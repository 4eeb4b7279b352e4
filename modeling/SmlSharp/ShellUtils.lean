/-
The compiler toolchain's shell utilities: quoting of arguments, command lines,
and the splitting of an argument list at the length limit of the host.
-/
import Mathlib.Algebra.Ring.Int.Defs
import Mathlib.Data.List.Basic

namespace SmlSharp

namespace ShellUtils

inductive Arg where
  | arg (s : String)
  | expand (s : String)
deriving DecidableEq

inductive HostOs where
  | unix
  | cygwin
  | mingw
deriving DecidableEq

/-- The settings that decide how a command line is written. -/
structure Config where
  hostOsType : HostOs
  cmdlineMaxlen : Option Int

/-! ### Quoting -/

def isPlainChar (c : Char) : Bool :=
  c.isAlphanum || c == '/' || c == '.' || c == '-' || c == '_' || c == '='

def escapeSh : List Char → List Char
  | [] => ['"', '"']
  | s =>
    ['\''] ++
      s.flatMap (fun c => if c = '\'' then ['\'', '\\', '\'', '\''] else [c]) ++
      ['\'']

def isCmdSpecial (c : Char) : Bool :=
  c == '&' || c == '|' || c == '<' || c == '>' ||
    c == '(' || c == ')' || c == '^' || c == '%'

def escapeBackslash : List Char → List Char × List Char
  | '"' :: ss => (['\\', '^', '"'], ss)
  | '\\' :: ss =>
    match escapeBackslash ss with
    | ([], ss) => ([], ss)
    | (escaped, ss) => (['\\', '\\'] ++ escaped, ss)
  | ss => ([], ss)

/-- The `span` of two suffixes of one string is the first of them. -/
def escapeStep : List Char → Option (List Char × List Char)
  | [] => none
  | '"' :: ss => some (['\\', '^', '"'], ss)
  | '\\' :: ss =>
    match escapeBackslash ('\\' :: ss) with
    | ([], ss2) => some ('\\' :: ss, ss2)
    | r => some r
  | c :: ss => if isCmdSpecial c then some (['^', c], ss) else some ([c], ss)

theorem length_escapeBackslash (ss : List Char) :
    (escapeBackslash ss).2.length ≤ ss.length := by
  fun_induction escapeBackslash ss with
  | case1 ss => simp
  | case2 ss ss2 heq ih =>
    rw [heq] at ih
    exact Nat.le_succ_of_le ih
  | case3 ss escaped ss2 hne heq ih =>
    rw [heq] at ih
    exact Nat.le_succ_of_le ih
  | case4 ss => exact Nat.le_refl _

theorem escapeBackslash_rest (ss : List Char) :
    (escapeBackslash ('\\' :: ss)).2 = (escapeBackslash ss).2 := by
  rw [escapeBackslash]
  split
  · next heq => rw [heq]
  · next heq => rw [heq]

theorem length_escapeStep {ss escaped rest : List Char}
    (h : escapeStep ss = some (escaped, rest)) : rest.length < ss.length := by
  unfold escapeStep at h
  split at h
  · cases h
  · cases h
    exact Nat.lt_succ_self _
  · next ss =>
    have hle := length_escapeBackslash ss
    rw [← escapeBackslash_rest] at hle
    generalize escapeBackslash ('\\' :: ss) = r at h hle
    split at h
    · cases h
      exact Nat.lt_succ_of_le hle
    · cases h
      exact Nat.lt_succ_of_le hle
  · split at h
    · cases h
      exact Nat.lt_succ_self _
    · cases h
      exact Nat.lt_succ_self _

/-- The escaped pieces, in order. -/
def escapeAll (ss : List Char) : List Char :=
  match h : escapeStep ss with
  | none => []
  | some (escaped, rest) =>
    have := length_escapeStep h
    escaped ++ escapeAll rest
termination_by ss.length

def escapeCmd (s : List Char) : List Char :=
  ['^', '"'] ++ escapeAll s ++ ['^', '"']

def escape (config : Config) : Arg → List Char
  | .expand s => s.toList
  | .arg s =>
    if 0 < s.toList.length ∧ s.toList.all isPlainChar then s.toList
    else
      match config.hostOsType with
      | .unix => escapeSh s.toList
      | .cygwin => escapeSh s.toList
      | .mingw => escapeCmd s.toList

/-! ### Command lines -/

/-- `String.concatWith " "`. -/
def join (config : Config) (args : List Arg) : List Char :=
  [' '].intercalate (args.map (escape config))

def splitArgsLoop (config : Config) (max : Int) :
    Int → List Arg → List Arg → List Arg × List Arg
  | _, r, [] => (r.reverse, [])
  | pos, r, h :: t =>
    let len := pos + 1 + (escape config h).length
    if len > max then (r.reverse, h :: t)
    else splitArgsLoop config max len (h :: r) t

def splitArgs (config : Config) (max : Int) (args : List Arg) :
    List Arg × List Arg :=
  splitArgsLoop config max 0 [] args

def split (config : Config) (pre args post : List Arg) : List Arg × List Arg :=
  match config.cmdlineMaxlen with
  | none => (args, [])
  | some max =>
    splitArgs config
      (max - ((join config pre).length + (join config post).length + 1)) args

/-! ### Lengths -/

variable (config : Config)

/-- The room that arguments take in a command line, with a space before each. -/
def argsSize (config : Config) (args : List Arg) : Int :=
  (args.map fun arg => 1 + ((escape config arg).length : Int)).sum

theorem argsSize_cons (arg : Arg) (args : List Arg) :
    argsSize config (arg :: args) =
      1 + (escape config arg).length + argsSize config args := by
  simp [argsSize]

theorem argsSize_append (args args' : List Arg) :
    argsSize config (args ++ args') =
      argsSize config args + argsSize config args' := by
  simp [argsSize]

theorem length_join_cons (arg : Arg) (args : List Arg) :
    ((join config (arg :: args)).length : Int) + 1 =
      argsSize config (arg :: args) := by
  induction args generalizing arg with
  | nil =>
    simp [join, argsSize]
    omega
  | cons arg' args ih =>
    have hrest := ih arg'
    rw [argsSize_cons, ← hrest]
    simp [join, List.intercalate_cons_cons]
    omega

theorem argsSize_le (args : List Arg) :
    argsSize config args ≤ (join config args).length + 1 := by
  cases args with
  | nil =>
    simp [argsSize]
    omega
  | cons arg args => exact Int.le_of_eq (length_join_cons config arg args).symm

theorem splitArgsLoop_append (max pos : Int) (r args : List Arg) :
    (splitArgsLoop config max pos r args).1 ++
        (splitArgsLoop config max pos r args).2 = r.reverse ++ args := by
  induction args generalizing pos r with
  | nil => rfl
  | cons h t ih =>
    rw [splitArgsLoop]
    split
    · rfl
    · rw [ih, List.reverse_cons, List.append_assoc]
      rfl

theorem splitArgsLoop_rest_nil {config : Config} {max pos : Int} {r args : List Arg}
    (h : (splitArgsLoop config max pos r args).2 = []) :
    args = [] ∨ pos + argsSize config args ≤ max := by
  induction args generalizing pos r with
  | nil => exact .inl rfl
  | cons arg args ih =>
    rw [splitArgsLoop] at h
    split at h
    · cases h
    · next hle =>
      rw [argsSize_cons]
      rcases ih h with hnil | hrest
      · subst hnil
        simp only [argsSize, List.map_nil, List.sum_nil]
        omega
      · omega

/-- Splitting keeps the arguments, in their order. -/
theorem split_append (pre args post : List Arg) :
    (split config pre args post).1 ++ (split config pre args post).2 = args := by
  unfold split
  split
  · exact List.append_nil _
  · exact splitArgsLoop_append _ _ _ _ _

/-- Arguments that need no splitting make a command within the limit. -/
theorem length_join_of_split {config : Config} {pre args post : List Arg}
    (hne : args ≠ []) (h : (split config pre args post).2 = []) {max : Int}
    (hmax : config.cmdlineMaxlen = some max) :
    ((join config (pre ++ args ++ post)).length : Int) ≤ max := by
  unfold split at h
  rw [hmax] at h
  rcases splitArgsLoop_rest_nil h with hnil | hfit
  · exact absurd hnil hne
  · obtain ⟨first, rest, hcons⟩ : ∃ first rest, pre ++ args ++ post = first :: rest := by
      cases hall : pre ++ args ++ post with
      | nil => simp_all
      | cons first rest => exact ⟨first, rest, rfl⟩
    have hlen := length_join_cons config first rest
    rw [← hcons, argsSize_append, argsSize_append] at hlen
    have hpre := argsSize_le config pre
    have hpost := argsSize_le config post
    omega

/-! ### What a shell reads -/

/-- Characters that have a meaning to the shell where they are not quoted; an
equals sign has one before the command's name only. -/
def shSpecial : List Char :=
  ['|', '&', ';', '<', '>', '(', ')', '$', Char.ofNat 96, '\t', '\n', '*', '?', '[',
    '#', '~', '%', '!', '{', '}']

inductive Quoting where
  | unquoted
  | apostrophes
  | quotes

/-- The words of a command line, without expansions: `none` where the shell would
expand something or wait for the end of a quotation.  The word that is being read
is there from its first character or quotation on. -/
def shWords : Quoting → Option (List Char) → List Char → Option (List (List Char))
  | .unquoted, word, [] => some word.toList
  | .unquoted, word, ' ' :: rest => (shWords .unquoted none rest).map (word.toList ++ ·)
  | .unquoted, word, '\'' :: rest => shWords .apostrophes (some (word.getD [])) rest
  | .unquoted, word, '"' :: rest => shWords .quotes (some (word.getD [])) rest
  | .unquoted, _, ['\\'] => none
  -- The shell joins the lines.
  | .unquoted, word, '\\' :: '\n' :: rest => shWords .unquoted word rest
  | .unquoted, word, '\\' :: c :: rest =>
    shWords .unquoted (some (word.getD [] ++ [c])) rest
  | .unquoted, word, c :: rest =>
    if c ∈ shSpecial then none
    else shWords .unquoted (some (word.getD [] ++ [c])) rest
  | .apostrophes, word, '\'' :: rest => shWords .unquoted word rest
  | .apostrophes, word, c :: rest =>
    shWords .apostrophes (some (word.getD [] ++ [c])) rest
  | .quotes, word, '"' :: rest => shWords .unquoted word rest
  | .quotes, word, c :: rest =>
    if c ∈ ['$', Char.ofNat 96, '\\'] then none
    else shWords .quotes (some (word.getD [] ++ [c])) rest
  | _, _, [] => none

attribute [local simp] shWords

theorem plain_not_special :
    (' ' :: '\'' :: '"' :: '\\' :: shSpecial).all (fun c => !isPlainChar c) = true := rfl

theorem shWords_plain {c : Char} (hplain : isPlainChar c = true)
    (word : Option (List Char)) (rest : List Char) :
    shWords .unquoted word (c :: rest) =
      shWords .unquoted (some (word.getD [] ++ [c])) rest := by
  have hnot : c ∉ ' ' :: '\'' :: '"' :: '\\' :: shSpecial := by
    intro hmem
    have hother := List.all_eq_true.mp plain_not_special c hmem
    simp [hplain] at hother
  simp only [List.mem_cons, not_or] at hnot
  obtain ⟨hblank, hapostrophe, hquote, hbackslash, hspecial⟩ := hnot
  rw [shWords, if_neg (by simpa [shSpecial] using hspecial)] <;> simp_all

theorem shWords_plains {text : List Char} (hplain : text.all isPlainChar = true)
    (word rest : List Char) : shWords .unquoted (some word) (text ++ rest) =
      shWords .unquoted (some (word ++ text)) rest := by
  induction text generalizing word with
  | nil => simp
  | cons c text ih =>
    rw [List.all_cons, Bool.and_eq_true] at hplain
    rw [List.cons_append, shWords_plain hplain.1, Option.getD_some, ih hplain.2]
    simp

/-- Between apostrophes the shell reads the text that `escapeSh` was given. -/
theorem shWords_escapeSh (text word rest : List Char) :
    shWords .apostrophes (some word)
        (text.flatMap (fun c => if c = '\'' then ['\'', '\\', '\'', '\''] else [c]) ++
          '\'' :: rest) = shWords .unquoted (some (word ++ text)) rest := by
  induction text generalizing word with
  | nil => simp
  | cons c text ih =>
    rw [List.flatMap_cons, List.append_assoc]
    by_cases hc : c = '\''
    · subst hc
      simpa using ih (word ++ ['\''])
    · rw [if_neg hc, List.singleton_append, shWords]
      · simpa using ih (word ++ [c])
      · simpa using hc

variable (config : Config)

theorem shWords_escape (hos : config.hostOsType ≠ .mingw) (s : String)
    (rest : List Char) :
    shWords .unquoted none (escape config (.arg s) ++ rest) =
      shWords .unquoted (some s.toList) rest := by
  have hsh : shWords .unquoted none (escapeSh s.toList ++ rest) =
      shWords .unquoted (some s.toList) rest := by
    cases s.toList with
    | nil => simp [escapeSh]
    | cons c text =>
      have hquoted := shWords_escapeSh (c :: text) [] rest
      simpa [escapeSh] using hquoted
  rw [escape]
  split
  · rename_i hplain
    cases htext : s.toList with
    | nil => simp [htext] at hplain
    | cons c text =>
      rw [htext, List.all_cons, Bool.and_eq_true] at hplain
      rw [List.cons_append, shWords_plain hplain.2.1, shWords_plains hplain.2.2]
      simp
  · cases hhost : config.hostOsType with
    | unix => exact hsh
    | cygwin => exact hsh
    | mingw => exact absurd hhost hos

end ShellUtils

end SmlSharp
