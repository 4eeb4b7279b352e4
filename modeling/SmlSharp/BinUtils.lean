/-
Linking in the compiler's toolchain: `nestLink`, which cuts a command line that
is too long for the host into links of temporary objects.
-/
import SmlSharp.ShellUtils

namespace SmlSharp

namespace BinUtils

open ShellUtils

abbrev Command := List Arg

structure Tools where
  config : Config
  ld : String
  /-- The directory of temporary files, with its slash. -/
  tmpDir : String
  objext : String

/-- `TempFile.freshName`: the count in at least six digits. -/
def freshName (count : Nat) : List Char :=
  let s := Nat.toDigits 10 count
  if s.length < 6 then List.replicate (6 - s.length) '0' ++ s else s

/-- The name that `TempFile.create` gives to an object file. -/
def tempFile (tools : Tools) (count : Nat) : String :=
  tools.tmpDir ++ (String.ofList (freshName count) ++ ("." ++ tools.objext))

theorem ofDigitChars_freshName (count : Nat) :
    Nat.ofDigitChars 10 (freshName count) 0 = count := by
  unfold freshName
  dsimp only
  split
  · rw [Nat.ofDigitChars_append, Nat.ofDigitChars_replicate_zero, Nat.mul_zero,
      Nat.ofDigitChars_ten_toDigits]
  · exact Nat.ofDigitChars_ten_toDigits

/-- Temporary files have different names. -/
theorem tempFile_injective (tools : Tools) : Function.Injective (tempFile tools) := by
  intro count count' heq
  have hlist := congrArg String.toList heq
  simp only [tempFile, String.toList_append, String.toList_ofList] at hlist
  have hname := List.append_cancel_right (List.append_cancel_left hlist)
  rw [← ofDigitChars_freshName count, hname, ofDigitChars_freshName]

/-- Arguments outside the directory of temporary files are none of them. -/
theorem tempFile_not_mem {tools : Tools} {args : List Arg}
    (houtside : ∀ s, .arg s ∈ args → ¬ tools.tmpDir.toList <+: s.toList)
    (count : Nat) : .arg (tempFile tools count) ∉ args := by
  intro hmem
  refine houtside _ hmem ?_
  rw [tempFile, String.toList_append]
  exact List.prefix_append _ _

/-- How many of the files go into the next temporary object. -/
def chooseLink : List Arg × List Arg → List Arg × List Arg
  | (file1 :: file2 :: files, rest) => (file1 :: file2 :: files, rest)
  | ([file1], file2 :: rest) => ([file1, file2], rest)
  | ([file1], []) => ([], [file1])
  | ([], file1 :: file2 :: rest) => ([file1, file2], rest)
  | ([], [file1]) => ([], [file1])
  | ([], []) => ([], [])

section NestLink

variable (tools : Tools)

def relocatable : List Arg := [.expand tools.ld, .arg "-r"]

def output (objfile : String) : List Arg := [.arg "-o", .arg objfile]

/-- The commands issued within `fuel` calls, if each of them succeeds.  The
count of temporary files grows by one for an object and by two for the output
of a command. -/
def nestLink : Nat → Nat → List Arg → List Arg → List Arg → List Arg →
    Option (List Command)
  | 0, _, _, _, _, _ => none
  | fuel + 1, count, pre, linked, [], post =>
    nestLink fuel count pre [] linked post
  | fuel + 1, count, pre, linked, file :: files, post =>
    match split tools.config pre (linked ++ file :: files) post with
    | (args, []) => some [pre ++ args ++ post]
    | ([], [arg]) => some [pre ++ [arg] ++ post]
    | _ =>
      let objfile := tempFile tools count
      let pre := relocatable tools
      let post := output objfile
      let (linkobjs, rest) :=
        chooseLink (split tools.config pre (file :: files) post)
      match linkobjs with
      | [] => nestLink fuel (count + 1) pre linked rest post
      | _ :: _ => do
          let cmds ←
            nestLink fuel (count + 3) pre (linked ++ [.arg objfile]) rest post
          return (pre ++ linkobjs ++ post) :: cmds

def invokeLinker (fuel count : Nat) (pre files post : List Arg) :
    Option (List Command) :=
  nestLink tools fuel count pre [] files post

structure LinkTools extends Tools where
  cc : String
  cxx : String
  ldflags : String
  stdlibs : String

def link (tools : LinkTools) (fuel count : Nat) (flags : List Arg)
    (objects : List String) (libs : List Arg) (dst : String) (useCXX : Bool) :
    Option (List Command) :=
  invokeLinker tools.toTools fuel count
    (.expand (if useCXX then tools.cxx else tools.cc) ::
      .expand tools.ldflags :: flags)
    (objects.map .arg)
    (libs ++ [.expand tools.stdlibs, .arg "-o", .arg dst])

def partialLink (fuel count : Nat) (objects : List String) (dst : String) :
    Option (List Command) :=
  invokeLinker tools fuel count (relocatable tools) (objects.map .arg)
    (output dst)

end NestLink

/-! ### A correct link -/

/-- A relocatable link into a temporary object. -/
structure Step where
  args : List Arg
  objfile : String

def Step.command (tools : Tools) (step : Step) : Command :=
  relocatable tools ++ step.args ++ output step.objfile

/-- What an argument stands for after the steps, the last one first. -/
def expand : List Step → Arg → List Arg
  | [], arg => [arg]
  | step :: earlier, arg =>
    if arg = .arg step.objfile then step.args.flatMap (expand earlier)
    else expand earlier arg

def WithinLimit (config : Config) (command : Command) (args : List Arg) : Prop :=
  ∀ max, config.cmdlineMaxlen = some max →
    ((join config command).length : Int) ≤ max ∨ args.length ≤ 2

/-- The commands link the files: relocatable links into fresh temporary objects,
each of which is used once, and then the caller's command, whose arguments stand
for the files in their order. -/
structure LinksFiles (tools : Tools) (count : Nat) (pre files post : List Arg)
    (cmds : List Command) (steps : List Step) (args : List Arg) : Prop where
  commands : cmds = steps.map (Step.command tools) ++ [pre ++ args ++ post]
  fresh : ∀ step ∈ steps, ∃ n, count ≤ n ∧ step.objfile = tempFile tools n
  distinct : (steps.map Step.objfile).Nodup
  used_once : ∀ step ∈ steps,
    (steps.flatMap Step.args ++ args).count (.arg step.objfile) = 1
  expands : args.flatMap (expand steps.reverse) = files
  within_steps : ∀ step ∈ steps,
    WithinLimit tools.config (step.command tools) step.args
  within_last : WithinLimit tools.config (pre ++ args ++ post) args

/-- The linker is invoked with the right commands, after finitely many calls. -/
def LinkCorrect (tools : Tools) (count : Nat) (pre files post : List Arg) : Prop :=
  ∃ fuel cmds steps args,
    invokeLinker tools fuel count pre files post = some cmds ∧
      LinksFiles tools count pre files post cmds steps args

/-! ### What the calls issue -/

section Runs

variable {tools : Tools} {fuel count : Nat}
variable {pre linked files post : List Arg} {cmds : List Command}

/-- The arguments go into one command: they fit, or there is only one. -/
def Single (config : Config) (pre args post : List Arg) : Prop :=
  (split config pre args post).2 = [] ∨ args.length = 1

/-- One call with files left: the command is issued, or it is nested. -/
theorem nestLink_cons {file : Arg}
    (h : nestLink tools (fuel + 1) count pre linked (file :: files) post =
      some cmds) : (Single tools.config pre (linked ++ file :: files) post ∧
      cmds = [pre ++ (linked ++ file :: files) ++ post]) ∨
    (¬ Single tools.config pre (linked ++ file :: files) post ∧ ∃ linkobjs rest,
        (linkobjs = [] ∧
          nestLink tools fuel (count + 1) (relocatable tools) linked rest
            (output (tempFile tools count)) = some cmds) ∨ ∃ cmds',
          nestLink tools fuel (count + 3) (relocatable tools)
            (linked ++ [.arg (tempFile tools count)]) rest
            (output (tempFile tools count)) = some cmds' ∧ cmds =
            Step.command tools ⟨linkobjs, tempFile tools count⟩ :: cmds') := by
  have happend := split_append tools.config pre
    (linked ++ file :: files) post
  rw [nestLink] at h
  unfold Single
  generalize split tools.config pre (linked ++ file :: files) post = parts
    at h happend ⊢
  split at h
  · cases h
    dsimp only at happend
    rw [List.append_nil] at happend
    exact .inl ⟨.inl rfl, by rw [happend]⟩
  · cases h
    dsimp only at happend
    rw [List.nil_append] at happend
    exact .inl ⟨.inr (by rw [← happend]; rfl), by rw [happend]⟩
  · next hmany hone =>
    refine .inr ⟨?_, ?_⟩
    · rintro (hfit | hlen)
      · obtain ⟨args, rest⟩ := parts
        exact hmany args (by rw [← hfit])
      · obtain ⟨args, rest⟩ := parts
        rw [← happend] at hlen
        cases args with
        | nil =>
          obtain ⟨arg, hrest⟩ := List.length_eq_one_iff.mp hlen
          exact hone arg (by rw [← hrest]; rfl)
        | cons arg args =>
          cases rest with
          | nil => exact hmany _ rfl
          | cons => simp at hlen
    · dsimp only at h
      generalize chooseLink (split tools.config (relocatable tools)
        (file :: files) (output (tempFile tools count))) = chosen at h
      obtain ⟨linkobjs, rest⟩ := chosen
      refine ⟨linkobjs, rest, ?_⟩
      cases linkobjs with
      | nil => exact .inl ⟨rfl, h⟩
      | cons obj objs =>
        obtain ⟨cmds', hrun, hret⟩ := Option.bind_eq_some_iff.mp h
        cases hret
        exact .inr ⟨cmds', hrun, rfl⟩

/-- The last of the commands writes a temporary object, not made before `count`,
which it also reads if an earlier command has made it. -/
def WritesTemp (tools : Tools) (count : Nat) (cmds : List Command) : Prop :=
  ∃ (steps : List Step) (args : List Arg) (k : Nat),
    cmds = steps.map (Step.command tools) ++
      [relocatable tools ++ args ++ output (tempFile tools k)] ∧
    count ≤ k ∧
    ∀ step ∈ steps, step.objfile = tempFile tools k →
      .arg (tempFile tools k) ∈ args

/-- What nested calls issue when the last temporary object is the `i`th: its
name is the last command's output, or that of a later one. -/
def Nested (tools : Tools) (i count : Nat) (args : List Arg)
    (cmds : List Command) : Prop :=
  ∃ (steps : List Step) (args' : List Arg) (k : Nat),
    cmds = steps.map (Step.command tools) ++
      [relocatable tools ++ args' ++ output (tempFile tools k)] ∧
    (∀ step ∈ steps, ∃ j, count ≤ j ∧ step.objfile = tempFile tools j) ∧
    ((k = i ∧ args ⊆ args') ∨
      (count ≤ k ∧ ∀ step ∈ steps, step.objfile = tempFile tools k →
        .arg (tempFile tools k) ∈ args'))

/-- The next object is made, or not, and the calls below are nested. -/
theorem Nested.cons {count' : Nat} {args : List Arg} (linkobjs : List Arg)
    {cmds' : List Command} (hcount : count < count') (hmade : cmds = cmds' ∨
      .arg (tempFile tools count) ∈ args ∧
        cmds = Step.command tools ⟨linkobjs, tempFile tools count⟩ :: cmds')
    (h : Nested tools count count' args cmds') :
    ∃ (steps : List Step) (args' : List Arg) (k : Nat),
      cmds = steps.map (Step.command tools) ++
        [relocatable tools ++ args' ++ output (tempFile tools k)] ∧
      (∀ step ∈ steps, ∃ j, count ≤ j ∧ step.objfile = tempFile tools j) ∧
      count ≤ k ∧ ∀ step ∈ steps, step.objfile = tempFile tools k →
        .arg (tempFile tools k) ∈ args' := by
  obtain ⟨steps, args', k, rfl, hnames, hlast⟩ := h
  have hk : count ≤ k := by
    rcases hlast with ⟨rfl, -⟩ | ⟨hk, -⟩
    · exact Nat.le_refl _
    · omega
  have hnames' : ∀ step ∈ steps, ∃ j, count ≤ j ∧
      step.objfile = tempFile tools j := by
    intro step hstep
    obtain ⟨j, hj, hname⟩ := hnames step hstep
    exact ⟨j, by omega, hname⟩
  have hreads : ∀ step ∈ steps, step.objfile = tempFile tools k →
      .arg (tempFile tools k) ∈ args' := by
    intro step hstep hobj
    rcases hlast with ⟨rfl, -⟩ | ⟨-, hread⟩
    · obtain ⟨j, hj, hname⟩ := hnames step hstep
      have hjk := tempFile_injective tools (hname.symm.trans hobj)
      omega
    · exact hread step hstep hobj
  rcases hmade with rfl | ⟨hmem, rfl⟩
  · exact ⟨steps, args', k, rfl, hnames', hk, hreads⟩
  · refine ⟨⟨linkobjs, tempFile tools count⟩ :: steps, args', k, rfl,
      ?_, hk, ?_⟩
    · intro step hstep
      rcases List.mem_cons.mp hstep with rfl | hstep
      · exact ⟨count, Nat.le_refl _, rfl⟩
      · exact hnames' step hstep
    · intro step hstep hobj
      rcases List.mem_cons.mp hstep with rfl | hstep
      · have hkcount := tempFile_injective tools hobj
        subst hkcount
        rcases hlast with ⟨-, hsub⟩ | ⟨hk', -⟩
        · exact hsub hmem
        · omega
      · exact hreads step hstep hobj

theorem nestLink_nested {i : Nat}
    (h : nestLink tools fuel count (relocatable tools) linked files
      (output (tempFile tools i)) = some cmds) :
    Nested tools i count (linked ++ files) cmds := by
  induction fuel generalizing count linked files cmds i with
  | zero => cases h
  | succ fuel ih =>
    cases files with
    | nil =>
      have hrun := ih h
      rwa [List.nil_append, ← List.append_nil linked] at hrun
    | cons file files =>
      rcases nestLink_cons h with ⟨-, rfl⟩ | ⟨-, linkobjs, rest, hnest⟩
      · exact ⟨[], _, i, rfl, by simp, .inl ⟨rfl, List.Subset.refl _⟩⟩
      rcases hnest with ⟨-, hrun⟩ | ⟨cmds', hrun, hcmds⟩
      · obtain ⟨steps, args', k, hcmds, hnames, hlast⟩ :=
          (ih hrun).cons [] (by omega) (.inl rfl)
        exact ⟨steps, args', k, hcmds, hnames, .inr hlast⟩
      · obtain ⟨steps, args', k, hcmds, hnames, hlast⟩ :=
          (ih hrun).cons linkobjs (by omega) (.inr ⟨by simp, hcmds⟩)
        exact ⟨steps, args', k, hcmds, hnames, .inr hlast⟩

/-- Arguments that do not go into one command: the caller's output is not
written. -/
theorem nestLink_writesTemp (hfiles : files ≠ [])
    (hsplit : ¬ Single tools.config pre files post)
    (h : nestLink tools fuel count pre [] files post = some cmds) :
    WritesTemp tools count cmds := by
  cases fuel with
  | zero => cases h
  | succ fuel =>
    cases files with
    | nil => exact absurd rfl hfiles
    | cons file files =>
      rcases nestLink_cons h with ⟨hone, -⟩ | ⟨-, linkobjs, rest, hnest⟩
      · exact absurd hone hsplit
      rcases hnest with ⟨-, hrun⟩ | ⟨cmds', hrun, hcmds⟩
      · obtain ⟨steps, args', k, hcmds, -, hlast⟩ :=
          (nestLink_nested hrun).cons [] (by omega) (.inl rfl)
        exact ⟨steps, args', k, hcmds, hlast⟩
      · obtain ⟨steps, args', k, hcmds, -, hlast⟩ :=
          (nestLink_nested hrun).cons linkobjs (by omega) (.inr ⟨by simp, hcmds⟩)
        exact ⟨steps, args', k, hcmds, hlast⟩

theorem nestLink_nil : nestLink tools fuel count pre [] [] post = none := by
  induction fuel with
  | zero => rfl
  | succ fuel ih => exact ih

theorem nestLink_single (hfiles : files ≠ [])
    (h : Single tools.config pre files post) :
    nestLink tools (fuel + 1) count pre [] files post =
      some [pre ++ files ++ post] := by
  cases files with
  | nil => exact absurd rfl hfiles
  | cons file files =>
    have happend := split_append tools.config pre
      (file :: files) post
    unfold Single at h
    rw [nestLink, List.nil_append]
    generalize split tools.config pre (file :: files) post = parts
      at h happend ⊢
    obtain ⟨args, rest⟩ := parts
    dsimp only at h happend
    cases rest with
    | nil =>
      rw [← happend, List.append_nil]
    | cons arg rest =>
      rcases h with hnil | hlen
      · cases hnil
      · rw [← happend, List.length_append, List.length_cons] at hlen
        have hargs : args = [] := List.eq_nil_of_length_eq_zero (by omega)
        have hrest : rest = [] := List.eq_nil_of_length_eq_zero (by omega)
        subst hargs hrest
        rw [← happend, List.nil_append]

end Runs

section Exact

variable {tools : Tools} {count : Nat} {pre files post args : List Arg}
variable {cmds : List Command} {steps : List Step}

theorem expand_of_not_made {arg : Arg}
    (h : ∀ step ∈ steps, step.objfile ≠ arg') (harg : arg = .arg arg') :
    expand steps arg = [arg] := by
  induction steps with
  | nil => rfl
  | cons step earlier ih =>
    have hne : ¬ arg = .arg step.objfile := by
      intro heq
      rw [harg, Arg.arg.injEq] at heq
      exact h step List.mem_cons_self heq.symm
    rw [expand, if_neg hne]
    exact ih fun step hstep => h step (List.mem_cons_of_mem _ hstep)

theorem objfile_of_command {step step' : Step}
    (h : step.command tools = step'.command tools) :
    step.objfile = step'.objfile := by
  have hlast := congrArg List.getLast? h
  simpa [Step.command, output] using hlast

theorem not_linksFiles
    (hfresh : ∀ n, count ≤ n → .arg (tempFile tools n) ∉ pre ++ files ++ post)
    (hwrites : WritesTemp tools count cmds) :
    ¬ LinksFiles tools count pre files post cmds steps args := by
  intro hlinks
  obtain ⟨steps', args', k, hcmds, hk, hreads⟩ := hwrites
  rw [hlinks.commands] at hcmds
  obtain ⟨hsteps, hlast⟩ := List.append_inj' hcmds rfl
  have hlast : pre ++ args ++ post =
      relocatable tools ++ args' ++ output (tempFile tools k) :=
    List.singleton_inj.mp hlast
  have hnot := hfresh k hk
  simp only [List.mem_append, not_or] at hnot
  obtain ⟨⟨hpre, hfiles⟩, hpost⟩ := hnot
  have hmem : .arg (tempFile tools k) ∈ args := by
    have hall : .arg (tempFile tools k) ∈ pre ++ args ++ post := by
      rw [hlast]
      simp [output]
    simpa [hpre, hpost] using hall
  by_cases hmade : ∃ step ∈ steps, step.objfile = tempFile tools k
  · -- the object is read and written by the last command
    obtain ⟨step, hstep, hobj⟩ := hmade
    have honce := hlinks.used_once step hstep
    rw [hobj, List.count_append] at honce
    have hread : .arg (tempFile tools k) ∈ args' := by
      have hcommand : step.command tools ∈ steps'.map (Step.command tools) := by
        rw [← hsteps]
        exact List.mem_map_of_mem hstep
      obtain ⟨step', hstep', heq⟩ := List.mem_map.mp hcommand
      exact hreads step' hstep' ((objfile_of_command heq).trans hobj)
    have hcount := congrArg (List.count (.arg (tempFile tools k))) hlast
    have hpos := List.count_pos_iff.mpr hread
    simp only [List.count_append, List.count_eq_zero_of_not_mem hpre,
      List.count_eq_zero_of_not_mem hpost, output, List.count_cons] at hcount
    simp at hcount
    omega
  · -- nothing has made the object, so it stands for itself
    have hself : expand steps.reverse (.arg (tempFile tools k)) =
        [.arg (tempFile tools k)] := by
      refine expand_of_not_made (fun step hstep hobj => hmade ?_) rfl
      exact ⟨step, List.mem_reverse.mp hstep, hobj⟩
    have hin : .arg (tempFile tools k) ∈ args.flatMap (expand steps.reverse) :=
      List.mem_flatMap.mpr ⟨_, hmem, by rw [hself]; exact List.mem_singleton_self _⟩
    rw [hlinks.expands] at hin
    exact hfiles hin

theorem flatMap_expand_nil (args : List Arg) : args.flatMap (expand []) = args := by
  induction args with
  | nil => rfl
  | cons arg args ih => rw [List.flatMap_cons, ih]; rfl

theorem linksFiles_single (hfiles : files ≠ [])
    (h : Single tools.config pre files post) :
    LinksFiles tools count pre files post [pre ++ files ++ post] [] files where
  commands := rfl
  fresh := by simp
  distinct := List.nodup_nil
  used_once := by simp
  expands := flatMap_expand_nil files
  within_steps := by simp
  within_last := by
    intro max hmax
    rcases h with hfit | hlen
    · exact .inl (length_join_of_split hfiles hfit hmax)
    · exact .inr (by omega)

/-- The linker is invoked correctly exactly when there is something to link
and it goes into one command. -/
theorem invokeLinker_exact (tools : Tools) (count : Nat)
    (pre files post : List Arg)
    (hfresh : ∀ n, count ≤ n → .arg (tempFile tools n) ∉ pre ++ files ++ post) :
    LinkCorrect tools count pre files post ↔
      files ≠ [] ∧ Single tools.config pre files post := by
  constructor
  · rintro ⟨fuel, cmds, steps, args, hrun, hlinks⟩
    have hfiles : files ≠ [] := by
      rintro rfl
      rw [invokeLinker, nestLink_nil] at hrun
      cases hrun
    refine ⟨hfiles, ?_⟩
    by_contra hsplit
    exact not_linksFiles hfresh (nestLink_writesTemp hfiles hsplit hrun) hlinks
  · rintro ⟨hfiles, hone⟩
    exact ⟨1, _, [], files, nestLink_single hfiles hone,
      linksFiles_single hfiles hone⟩

/-- A host with a limit of forty characters. -/
def shortLines : Tools := ⟨⟨.mingw, some 40⟩, "ld", "/tmp/", "o"⟩

/-- Three objects fit into one command there. -/
theorem invokeLinker_exact_three :
    LinkCorrect shortLines 0 (relocatable shortLines) [.arg "a.o", .arg "b.o", .arg "c.o"]
      (output "x.o") := by
  refine (invokeLinker_exact shortLines 0 _ _ _ fun n _ => ?_).2
    ⟨List.cons_ne_nil _ _, .inl (by decide)⟩
  refine tempFile_not_mem (fun s hs => ?_) n
  simp only [relocatable, output, List.cons_append, List.nil_append,
    List.mem_cons, List.not_mem_nil, reduceCtorEq, Arg.arg.injEq, false_or,
    or_false] at hs
  rcases hs with rfl | rfl | rfl | rfl | rfl | rfl <;> decide

/-- Eight objects on that host: the last command writes a temporary object, the
one that it reads. -/
theorem partialLink_eight :
    partialLink shortLines 9 0
        ["a.o", "b.o", "c.o", "d.o", "e.o", "f.o", "g.o", "h.o"] "x.o" =
      some
        [[.expand "ld", .arg "-r", .arg "a.o", .arg "b.o", .arg "c.o",
          .arg "d.o", .arg "-o", .arg "/tmp/000000.o"],
        [.expand "ld", .arg "-r", .arg "e.o", .arg "f.o", .arg "g.o",
          .arg "h.o", .arg "-o", .arg "/tmp/000003.o"],
        [.expand "ld", .arg "-r", .arg "/tmp/000000.o", .arg "/tmp/000003.o",
          .arg "-o", .arg "/tmp/000006.o"],
        [.expand "ld", .arg "-r", .arg "/tmp/000006.o",
          .arg "-o", .arg "/tmp/000006.o"]] ∧
    ¬ LinkCorrect shortLines 0 (relocatable shortLines)
        (["a.o", "b.o", "c.o", "d.o", "e.o", "f.o", "g.o", "h.o"].map .arg)
        (output "x.o") := by
  refine ⟨by decide, ?_⟩
  rintro ⟨fuel, cmds, steps, args, hrun, hlinks⟩
  have hsplit : ¬ Single shortLines.config (relocatable shortLines)
      (["a.o", "b.o", "c.o", "d.o", "e.o", "f.o", "g.o", "h.o"].map .arg)
      (output "x.o") := by
    unfold Single
    decide
  have hwrites := nestLink_writesTemp (by decide) hsplit hrun
  refine not_linksFiles (fun n _ => ?_) hwrites hlinks
  refine tempFile_not_mem (fun s hs => ?_) n
  simp only [relocatable, output, List.map_cons, List.map_nil, List.cons_append,
    List.nil_append, List.mem_cons, List.not_mem_nil, reduceCtorEq,
    Arg.arg.injEq, false_or, or_false] at hs
  rcases hs with rfl | rfl | rfl | rfl | rfl | rfl | rfl | rfl | rfl | rfl | rfl <;>
    decide

end Exact

end BinUtils

end SmlSharp
