/-
What the terms emitted for a datatype compute, and that a switch runs the
branch of the constructor its value was built with.
-/
import SmlSharp.Lib.Except
import Mathlib.Data.List.Perm.Subperm
import Mathlib.Logic.Function.Basic
import SmlSharp.DatatypeCompilation

namespace SmlSharp

namespace DatatypeCompilation

open RuntimeTypes DatatypeLayout

variable {κ τ ε : Type}

/-! The values of the machine and the evaluation of emitted terms. -/

inductive MValue where
  | null
  | word (bits : Nat)
  | record (fields : List MValue)
  | ref (content : MValue)

/-- The values of the variables: those of `EmitTypedLambda.newId` and those of
the source terms. -/
structure RunEnv where
  vid : Nat → Option MValue
  var : Nat → Option MValue

def RunEnv.bindVid (env : RunEnv) (vid : Nat) (value : MValue) : RunEnv :=
  { env with vid := Function.update env.vid vid (some value) }

def RunEnv.bindVar (env : RunEnv) (varId : Nat) (value : MValue) : RunEnv :=
  { env with var := Function.update env.var varId (some value) }

@[simp] theorem RunEnv.bindVid_self (env : RunEnv) (vid : Nat) (value : MValue) :
    (env.bindVid vid value).vid vid = some value :=
  Function.update_self ..

@[simp] theorem RunEnv.bindVid_var (env : RunEnv) (vid : Nat) (value : MValue) :
    (env.bindVid vid value).var = env.var :=
  rfl

@[simp] theorem RunEnv.bindVar_var (env : RunEnv) (varId : Nat) (value : MValue) :
    (env.bindVar varId value).var = Function.update env.var varId (some value) :=
  rfl

/-- What the source terms evaluate to. -/
abbrev Source (ε : Type) := ε → (Nat → Option MValue) → Option MValue

mutual

def eval (source : Source ε) : EmitTypedLambda τ ε → RunEnv → Option MValue
  | .exp exp _, env => source exp env.var
  | .cast exp _, env => eval source exp env
  | .tuple exps, env => (evalList source exps env).map .record
  | .selectN index exp, env =>
    match eval source exp env with
    | some (.record fields) => if index = 0 then none else fields[index - 1]?
    | _ => none
  | .conTag tag, _ => some (.word tag)
  | .null, _ => some .null
  | .unit, _ => some (.word 0)
  | .var vid, env => env.vid vid
  | .elet vid bound body, env =>
    match eval source bound env with
    | some value => eval source body (env.bindVid vid value)
    | none => none
  | .eif cond ifTrue ifFalse, env =>
    match eval source cond env with
    | some (.word bits) =>
      if bits = 0 then eval source ifFalse env else eval source ifTrue env
    | _ => none
  | .isNull exp, env =>
    match eval source exp env with
    | some .null => some (.word 1)
    | some _ => some (.word 0)
    | none => none
  | .eswitch exp branches default, env =>
    match eval source exp env with
    | some (.word bits) =>
      match evalBranches source branches bits env with
      | some result => result
      | none => eval source default env
    | _ => none
  | .tlLet varId _ bound body, env =>
    match eval source bound env with
    | some value => eval source body (env.bindVar varId value)
    | none => none
  | .refAlloc _ exp, env => (eval source exp env).map .ref
  | .refDeref _ exp, env =>
    match eval source exp env with
    | some (.ref content) => some content
    | _ => none

def evalList (source : Source ε) :
    List (EmitTypedLambda τ ε) → RunEnv → Option (List MValue)
  | [], _ => some []
  | exp :: exps, env =>
    match eval source exp env, evalList source exps env with
    | some value, some values => some (value :: values)
    | _, _ => none

/-- The first branch with the tag, if there is one. -/
def evalBranches (source : Source ε) :
    List (Nat × EmitTypedLambda τ ε) → Nat → RunEnv → Option (Option MValue)
  | [], _, _ => none
  | entry :: branches, bits, env =>
    if bits = entry.1 then some (evalBranch source entry env)
    else evalBranches source branches bits env

def evalBranch (source : Source ε) :
    Nat × EmitTypedLambda τ ε → RunEnv → Option MValue
  | (_, branch), env => eval source branch env

end

/-! The representation of a value. -/

def tagIndex (tagMap : List String) (name : String) : Nat :=
  tagMap.findIdx fun tagName => name = tagName

def untagged (wrap : Bool) (arg : MValue) : MValue :=
  if wrap then .record [arg] else arg

/-- The representation of the value with this constructor and argument. -/
def represent : Layout → String → Option MValue → MValue
  | .layoutTagged (.taggedRecord tagMap), name, arg =>
    .record (.word (tagIndex tagMap name) :: arg.toList)
  | .layoutTagged (.taggedTagonly tagMap), name, _ => .word (tagIndex tagMap name)
  | .layoutTagged (.taggedOrNull _ _), _, none => .null
  | .layoutTagged (.taggedOrNull tagMap _), name, some arg =>
    .record [.word (tagIndex tagMap name), arg]
  | .layoutChoice falseName, name, _ => .word (if name = falseName then 0 else 1)
  | .layoutSingle, _, _ => .word 0
  | .layoutSingleArg wrap, _, some arg => untagged wrap arg
  | .layoutSingleArg _, _, none => .null
  | .layoutArgOrNull wrap, _, some arg => untagged wrap arg
  | .layoutArgOrNull _, _, none => .null
  | .layoutRef, _, some arg => .ref arg
  | .layoutRef, _, none => .null

variable {tagged : TaggedLayout} {name : String} {ty : IDCalc.Ty κ} {conSet : ConSet κ}
  {property : Property κ} {values : String → MValue → Prop} {arg : Option MValue}
  {rules : List (SwitchRule τ ε)} {rule : SwitchRule τ ε} {source : Source ε} {env : RunEnv}
  {defaultExp : ε} {falseName : String} {dataExp : ε}

theorem lookupConTag_eq {path : List String}
    (hpath : lastSymbol path = .ok name) (hmem : name ∈ TaggedLayout.tagMap tagged) :
    lookupConTag tagged path = .ok (tagIndex (TaggedLayout.tagMap tagged) name) := by
  have hfind : (TaggedLayout.tagMap tagged).findIdx? (fun tagName => name = tagName) =
      some (tagIndex (TaggedLayout.tagMap tagged) name) := by
    rw [List.findIdx?_eq_guard_findIdx_lt, tagIndex, Option.guard_eq_some_iff]
    refine ⟨rfl, ?_⟩
    simpa using hmem
  simp only [lookupConTag, hpath, except_ok_bind, hfind]

theorem tagIndex_inj {tagMap : List String} {name' : String} (hmem : name ∈ tagMap)
    (hmem' : name' ∈ tagMap) (heq : tagIndex tagMap name = tagIndex tagMap name') :
    name = name' := by
  have hname : ∀ symbol ∈ tagMap, ∀ (hlt : tagIndex tagMap symbol < tagMap.length),
      tagMap[tagIndex tagMap symbol] = symbol := by
    intro symbol _ hlt
    have hfound : symbol = tagMap[tagIndex tagMap symbol] :=
      of_decide_eq_true (List.findIdx_getElem (w := hlt))
    exact hfound.symm
  have hlt : tagIndex tagMap name < tagMap.length :=
    List.findIdx_lt_length_of_exists ⟨name, hmem, by simp⟩
  have hlt' : tagIndex tagMap name' < tagMap.length :=
    List.findIdx_lt_length_of_exists ⟨name', hmem', by simp⟩
  rw [← hname name hmem hlt, ← hname name' hmem' hlt']
  simp only [heq]

/-! The shapes that the layouts are chosen for. -/

/-- The constructors of the datatypes that have a layout. -/
def LayoutShape [DecidableEq κ] (conSet : ConSet κ) : Layout → Prop
  | .layoutTagged (.taggedRecord tagMap) => tagMap = conSet.listKeys
  | .layoutTagged (.taggedTagonly tagMap) =>
    tagMap = conSet.listKeys ∧ ∀ entry ∈ conSet.items, entry.2 = none
  | .layoutTagged (.taggedOrNull tagMap nullName) =>
    tagMap = conSet.listKeys ∧ nullaryCons conSet.items = [nullName]
  | .layoutChoice falseName => ∃ name, conSet.items = [(falseName, none), (name, none)]
  | .layoutSingle => ∃ name, conSet.items = [(name, none)]
  | .layoutSingleArg _ => ∃ name ty, conSet.items = [(name, some ty)]
  | .layoutArgOrNull wrap => ∃ name ty nullName,
      argCons conSet.items = [(name, ty)] ∧ nullaryCons conSet.items = [nullName] ∧
        wrap = wrapArgOrNull (propertyOf ty)
  | .layoutRef => ∃ name ty, conSet.items = [(name, some ty)]

/-- A property that the compiler gives a datatype with these constructors: the
one of its layout, or that of `ref`. -/
def HasLayout [DecidableEq κ] (conSet : ConSet κ) (property : Property κ) : Prop :=
  datatypeLayout conSet = .ok property ∨
    property = recordProp .layoutRef ∧ ∃ name ty, conSet.items = [(name, some ty)]

theorem mem_argCons {items : List (String × Option (IDCalc.Ty κ))} :
    (name, ty) ∈ argCons items ↔ (name, some ty) ∈ items := by
  simp [argCons]

theorem mem_nullaryCons {items : List (String × Option (IDCalc.Ty κ))} :
    name ∈ nullaryCons items ↔ (name, none) ∈ items := by
  simp only [nullaryCons, List.mem_filterMap]
  constructor
  · rintro ⟨⟨name', ty⟩, hmem, hsome⟩
    cases ty with
    | none =>
      obtain rfl : name' = name := by simpa using hsome
      exact hmem
    | some ty => simp at hsome
  · intro hmem
    exact ⟨(name, none), hmem, by simp⟩

theorem eq_map_nullaryCons {items : List (String × Option (IDCalc.Ty κ))}
    (hargs : argCons items = []) : items = (nullaryCons items).map fun name => (name, none) := by
  induction items with
  | nil => rfl
  | cons entry rest ih =>
    obtain ⟨name, ty⟩ := entry
    cases ty with
    | none =>
      have hrest : argCons rest = [] := by simpa [argCons] using hargs
      have hnames : nullaryCons ((name, none) :: rest) = name :: nullaryCons rest := by
        simp [nullaryCons]
      rw [hnames, List.map_cons, ← ih hrest]
    | some ty => simp [argCons] at hargs

theorem eq_map_argCons {items : List (String × Option (IDCalc.Ty κ))}
    (hnullary : nullaryCons items = []) :
    items = (argCons items).map fun entry => (entry.1, some entry.2) := by
  induction items with
  | nil => rfl
  | cons entry rest ih =>
    obtain ⟨name, ty⟩ := entry
    cases ty with
    | none => simp [nullaryCons] at hnullary
    | some ty =>
      have hrest : nullaryCons rest = [] := by simpa [nullaryCons] using hnullary
      have hentries : argCons ((name, some ty) :: rest) = (name, ty) :: argCons rest := by
        simp [argCons]
      rw [hentries, List.map_cons, ← ih hrest]

theorem layoutShape_of_hasLayout [DecidableEq κ]
    (hlayout : HasLayout conSet property) :
    ∃ layout, property.rep = .data layout ∧ LayoutShape conSet layout := by
  rcases hlayout with hlayout | ⟨rfl, hshape⟩
  · rw [datatypeLayout, classify_eq] at hlayout
    split at hlayout
    · cases hlayout
    · rename_i name heq
      obtain ⟨hargs, hnullary⟩ := Classified.mk.inj heq
      obtain rfl := Except.ok.inj hlayout
      refine ⟨.layoutSingle, rfl, name, ?_⟩
      rw [eq_map_nullaryCons hargs, hnullary]
      rfl
    · rename_i name1 name2 heq
      obtain ⟨hargs, hnullary⟩ := Classified.mk.inj heq
      obtain rfl := Except.ok.inj hlayout
      refine ⟨.layoutChoice name1, rfl, name2, ?_⟩
      rw [eq_map_nullaryCons hargs, hnullary]
      rfl
    · rename_i name names _ _ heq
      obtain ⟨hargs, -⟩ := Classified.mk.inj heq
      obtain rfl := Except.ok.inj hlayout
      refine ⟨.layoutTagged (.taggedTagonly (makeTagMap conSet)), rfl, rfl, ?_⟩
      intro entry hentry
      rw [eq_map_nullaryCons hargs, List.mem_map] at hentry
      obtain ⟨name, -, rfl⟩ := hentry
      rfl
    · rename_i name ty heq
      obtain ⟨hargs, hnullary⟩ := Classified.mk.inj heq
      obtain rfl := Except.ok.inj hlayout
      refine ⟨.layoutSingleArg (wrapSingleArg (propertyOf ty)), rfl, name, ty, ?_⟩
      rw [eq_map_argCons hnullary, hargs]
      rfl
    · rename_i name ty nullName heq
      obtain ⟨hargs, hnullary⟩ := Classified.mk.inj heq
      obtain rfl := Except.ok.inj hlayout
      exact ⟨.layoutArgOrNull (wrapArgOrNull (propertyOf ty)), rfl, name, ty, nullName,
        hargs, hnullary, rfl⟩
    · rename_i args nullName _ _ heq
      obtain ⟨-, hnullary⟩ := Classified.mk.inj heq
      obtain rfl := Except.ok.inj hlayout
      exact ⟨.layoutTagged (.taggedOrNull (makeTagMap conSet) nullName), rfl, rfl, hnullary⟩
    · obtain rfl := Except.ok.inj hlayout
      exact ⟨.layoutTagged (.taggedRecord (makeTagMap conSet)), rfl, rfl⟩
  · exact ⟨.layoutRef, rfl, hshape⟩

/-! Building a value. -/

/-- The values of a datatype: a constructor, with an argument if it takes one.
`values` are the representations of the values of each argument's type. -/
inductive IsValue (conSet : ConSet κ) (values : String → MValue → Prop) :
    String → Option MValue → Prop
  | nullary {name : String} (hcon : (name, none) ∈ conSet.items) : IsValue conSet values name none
  | applied {name : String} {ty : IDCalc.Ty κ} {arg : MValue}
      (hcon : (name, some ty) ∈ conSet.items) (harg : values name arg) :
      IsValue conSet values name (some arg)

/-- The argument expression of a constructor evaluates to its argument. -/
def EvaluatesTo (source : Source ε) (env : RunEnv) :
    Option ε → Option τ → Option MValue → Prop
  | none, none, none => True
  | some argExp, some _, some arg => source argExp env.var = some arg
  | _, _, _ => False

/-- `composeCon` emits a term that evaluates to the representation. -/
def Composes (τ ε : Type) (property : Property κ) (name : String) (arg : Option MValue)
    (value : MValue) : Prop :=
  ∀ (conInfo : ConInfo) (argTy : Option τ) (retTy : τ) (argExp : Option ε)
    (source : Source ε) (env : RunEnv),
    lastSymbol conInfo.path = .ok name → EvaluatesTo source env argExp argTy arg →
      ∃ code, composeCon property conInfo argTy retTy argExp = .ok code ∧
        eval source code env = some value

theorem name_mem_listKeys {ty : Option (IDCalc.Ty κ)}
    (hcon : (name, ty) ∈ conSet.items) : name ∈ conSet.listKeys :=
  List.mem_map.2 ⟨(name, ty), hcon, rfl⟩

theorem IsValue.mem_listKeys (hvalue : IsValue conSet values name arg) :
    name ∈ conSet.listKeys := by
  cases hvalue with
  | nullary hcon => exact name_mem_listKeys hcon
  | applied hcon _ => exact name_mem_listKeys hcon

theorem keys_nodup (conSet : ConSet κ) : (conSet.items.map Prod.fst).Nodup := by
  rw [List.Nodup, List.pairwise_map]
  exact conSet.sorted.imp fun hlt => ne_of_lt hlt

/-- A constructor has one type. -/
theorem ty_unique {ty ty' : Option (IDCalc.Ty κ)}
    (hcon : (name, ty) ∈ conSet.items) (hcon' : (name, ty') ∈ conSet.items) : ty = ty' := by
  have heq := List.inj_on_of_nodup_map (keys_nodup conSet) hcon hcon' rfl
  exact congrArg Prod.snd heq

theorem not_nullary_of_single {con : String}
    (hitems : conSet.items = [(con, some ty)]) : (name, none) ∉ conSet.items := by
  rw [hitems]
  simp

theorem not_applied_of_nullary
    (hall : ∀ entry ∈ conSet.items, entry.2 = none) : (name, some ty) ∉ conSet.items := by
  intro hmem
  exact absurd (hall _ hmem) (by simp)

theorem composes_nullary [DecidableEq κ] {layout : Layout}
    (hrep : property.rep = .data layout) (hshape : LayoutShape conSet layout)
    (hcon : (name, none) ∈ conSet.items) :
    Composes τ ε property name none (represent layout name none) := by
  intro conInfo argTy retTy argExp source env hname hargs
  have hkeys := name_mem_listKeys hcon
  have hextract : extractLayout property = .ok layout := by
    rw [extractLayout, hrep]
  cases argExp with
  | some argExp => cases argTy <;> exact hargs.elim
  | none =>
    cases argTy with
    | some argTy => exact hargs.elim
    | none =>
      unfold composeCon
      rw [hextract]
      cases layout with
      | layoutTagged tagged =>
        cases tagged with
        | taggedRecord tagMap =>
          refine ⟨.cast (.tuple [.conTag (tagIndex tagMap name)]) (.ty retTy), ?_, rfl⟩
          have hlookup : lookupConTag (.taggedRecord tagMap) conInfo.path =
              .ok (tagIndex tagMap name) := lookupConTag_eq hname (hshape ▸ hkeys)
          change composeTaggedCon (.taggedRecord tagMap) conInfo none retTy = _
          rw [composeTaggedCon, hlookup]
          rfl
        | taggedTagonly tagMap =>
          refine ⟨.cast (.conTag (tagIndex tagMap name)) (.ty retTy), ?_, rfl⟩
          have hlookup : lookupConTag (.taggedTagonly tagMap) conInfo.path =
              .ok (tagIndex tagMap name) := lookupConTag_eq hname (hshape.1 ▸ hkeys)
          change (lookupConTag _ _ >>= _) = _
          rw [hlookup]
          rfl
        | taggedOrNull tagMap nullName => exact ⟨.cast .null (.ty retTy), rfl, rfl⟩
      | layoutArgOrNull wrap => exact ⟨.cast .null (.ty retTy), rfl, rfl⟩
      | layoutSingleArg wrap =>
        obtain ⟨con, ty, hitems⟩ := hshape
        exact absurd hcon (not_nullary_of_single hitems)
      | layoutChoice falseName =>
        refine ⟨.cast (.conTag (if name = falseName then 0 else 1)) (.ty retTy), ?_, rfl⟩
        change (lastSymbol _ >>= _) = _
        rw [hname]
        rfl
      | layoutSingle => exact ⟨.cast .unit (.ty retTy), rfl, rfl⟩
      | layoutRef =>
        obtain ⟨con, ty, hitems⟩ := hshape
        exact absurd hcon (not_nullary_of_single hitems)

theorem composes_applied [DecidableEq κ] {layout : Layout}
    (hrep : property.rep = .data layout) (hshape : LayoutShape conSet layout)
    (hcon : (name, some ty) ∈ conSet.items) (arg : MValue) :
    Composes τ ε property name (some arg) (represent layout name (some arg)) := by
  intro conInfo argTy retTy argExp source env hname hargs
  have hkeys := name_mem_listKeys hcon
  have hextract : extractLayout property = .ok layout := by
    rw [extractLayout, hrep]
  cases argExp with
  | none => cases argTy <;> exact hargs.elim
  | some argExp =>
    cases argTy with
    | none => exact hargs.elim
    | some argTy =>
      have harg : source argExp env.var = some arg := hargs
      unfold composeCon
      rw [hextract]
      cases layout with
      | layoutTagged tagged =>
        cases tagged with
        | taggedRecord tagMap =>
          refine ⟨.cast (.tuple [.conTag (tagIndex tagMap name), .exp argExp argTy])
            (.ty retTy), ?_, ?_⟩
          · have hlookup : lookupConTag (.taggedRecord tagMap) conInfo.path =
                .ok (tagIndex tagMap name) := lookupConTag_eq hname (hshape ▸ hkeys)
            change composeTaggedCon (.taggedRecord tagMap) conInfo (some (.exp argExp argTy))
              retTy = _
            rw [composeTaggedCon, hlookup]
            rfl
          · simp [eval, evalList, harg, represent]
        | taggedTagonly tagMap =>
          exact absurd hcon (not_applied_of_nullary hshape.2)
        | taggedOrNull tagMap nullName =>
          refine ⟨.cast (.tuple [.conTag (tagIndex tagMap name), .exp argExp argTy])
            (.ty retTy), ?_, ?_⟩
          · have hlookup : lookupConTag (.taggedOrNull tagMap nullName) conInfo.path =
                .ok (tagIndex tagMap name) := lookupConTag_eq hname (hshape.1 ▸ hkeys)
            change composeTaggedCon (.taggedOrNull tagMap nullName) conInfo
              (some (.exp argExp argTy)) retTy = _
            rw [composeTaggedCon, hlookup]
            rfl
          · simp [eval, evalList, harg, represent]
      | layoutArgOrNull wrap =>
        refine ⟨_, rfl, ?_⟩
        cases wrap <;> simp [eval, evalList, harg, represent, untagged]
      | layoutSingleArg wrap =>
        refine ⟨_, rfl, ?_⟩
        cases wrap <;> simp [eval, evalList, harg, represent, untagged]
      | layoutChoice falseName =>
        obtain ⟨con, hitems⟩ := hshape
        exact absurd hcon (by simp [hitems])
      | layoutSingle =>
        obtain ⟨con, hitems⟩ := hshape
        exact absurd hcon (by simp [hitems])
      | layoutRef =>
        refine ⟨_, rfl, ?_⟩
        simp [eval, harg, represent]

/-! Inspecting a value. -/

/-- The rules of a case over some of the constructors.  A rule binds a variable
when its constructor takes an argument. -/
structure RulesFor (conSet : ConSet κ) (rules : List (SwitchRule τ ε)) : Prop where
  nonempty : rules ≠ []
  constructors : ∀ rule ∈ rules, ∃ name ty, lastSymbol rule.con.path = .ok name ∧
    (name, ty) ∈ conSet.items ∧ rule.argVar.isSome = ty.isSome
  distinct : (rules.map fun rule => lastSymbol rule.con.path).Nodup

/-- The branch of a rule, with its variable bound to the argument. -/
def runBranch (source : Source ε) (rule : SwitchRule τ ε) (arg : Option MValue)
    (var : Nat → Option MValue) : Option MValue :=
  match rule.argVar, arg with
  | some argVar, some arg => source rule.branch (Function.update var argVar.id (some arg))
  | _, _ => source rule.branch var

@[simp] theorem runBranch_none (source : Source ε) (conInfo : ConInfo) (branch : ε)
    (arg : Option MValue) (var : Nat → Option MValue) :
    runBranch (τ := τ) source ⟨conInfo, none, branch⟩ arg var = source branch var := by
  cases arg <;> rfl

/-- The code of a switch does what the case does on the value with this
constructor and argument: the branch of its rule, or the default. -/
def RunsCase (source : Source ε) (code : EmitTypedLambda τ ε)
    (rules : List (SwitchRule τ ε)) (defaultExp : ε) (name : String) (arg : Option MValue)
    (env : RunEnv) : Prop :=
  (∀ rule ∈ rules, lastSymbol rule.con.path = .ok name →
    eval source code env = runBranch source rule arg env.var) ∧
  ((∀ rule ∈ rules, lastSymbol rule.con.path ≠ .ok name) →
    eval source code env = source defaultExp env.var)

/-- `switchCon` emits code that runs the case on the representation of the
value with this constructor and argument. -/
def Switches (τ ε : Type) (conSet : ConSet κ) (property : Property κ) (name : String)
    (arg : Option MValue) (value : MValue) : Prop :=
  ∀ (dataVid tagVid : Nat) (dataExp : ε) (dataTy : τ) (rules : List (SwitchRule τ ε))
    (defaultExp : ε) (resultTy : τ) (source : Source ε) (env : RunEnv),
    RulesFor conSet rules → source dataExp env.var = some value →
      ∃ code, switchCon dataVid tagVid property dataExp dataTy rules defaultExp resultTy =
          .ok code ∧ RunsCase source code rules defaultExp name arg env

/-- The branches of a tagged switch, and the one that a tag selects. -/
theorem mapM_lookupConTag (source : Source ε)
    (argFn : τ → EmitTypedLambda τ ε) (resultTy : τ)
    (hname : name ∈ TaggedLayout.tagMap tagged) (env : RunEnv)
    (rules : List (SwitchRule τ ε))
    (hrules : ∀ rule ∈ rules, ∃ symbol, lastSymbol rule.con.path = .ok symbol ∧
      symbol ∈ TaggedLayout.tagMap tagged)
    (hdistinct : (rules.map fun rule => lastSymbol rule.con.path).Nodup) :
    ∃ branches, (rules.mapM fun rule => do
        let tag ← lookupConTag tagged rule.con.path
        return (tag, makeBranch argFn rule.argVar rule.branch resultTy)) = .ok branches ∧
      (∀ rule ∈ rules, lastSymbol rule.con.path = .ok name →
        evalBranches source branches (tagIndex (TaggedLayout.tagMap tagged) name) env =
          some (eval source (makeBranch argFn rule.argVar rule.branch resultTy) env)) ∧
      ((∀ rule ∈ rules, lastSymbol rule.con.path ≠ .ok name) →
        evalBranches source branches (tagIndex (TaggedLayout.tagMap tagged) name) env =
          none) := by
  induction rules with
  | nil => exact ⟨[], rfl, fun rule hrule => absurd hrule (by simp), fun _ => rfl⟩
  | cons first rest ih =>
    obtain ⟨hfirst, hdistinct⟩ := List.nodup_cons.1 hdistinct
    obtain ⟨branches, hmap, hselect, hdefault⟩ :=
      ih (fun rule hrule => hrules rule (List.mem_cons_of_mem first hrule)) hdistinct
    obtain ⟨symbol, hsymbol, hmem⟩ := hrules first List.mem_cons_self
    have hlookup := lookupConTag_eq hsymbol hmem
    refine ⟨(tagIndex (TaggedLayout.tagMap tagged) symbol,
      makeBranch argFn first.argVar first.branch resultTy) :: branches, ?_, ?_, ?_⟩
    · rw [List.mapM_cons, hlookup, hmap]
      rfl
    · intro rule hrule hrulename
      rcases List.mem_cons.1 hrule with rfl | hrule
      · obtain rfl : symbol = name := Except.ok.inj (hsymbol.symm.trans hrulename)
        rw [evalBranches, if_pos rfl]
        rfl
      · have hne : tagIndex (TaggedLayout.tagMap tagged) name ≠
            tagIndex (TaggedLayout.tagMap tagged) symbol := by
          intro heq
          obtain rfl := tagIndex_inj hname hmem heq
          exact hfirst (List.mem_map.2 ⟨rule, hrule, hrulename.trans hsymbol.symm⟩)
        rw [evalBranches, if_neg hne]
        exact hselect rule hrule hrulename
    · intro hnone
      have hne : tagIndex (TaggedLayout.tagMap tagged) name ≠
          tagIndex (TaggedLayout.tagMap tagged) symbol := by
        intro heq
        obtain rfl := tagIndex_inj hname hmem heq
        exact hnone first List.mem_cons_self hsymbol
      rw [evalBranches, if_neg hne]
      exact hdefault fun rule hrule => hnone rule (List.mem_cons_of_mem first hrule)

theorem RulesFor.length_le {conSet : ConSet κ} {rules : List (SwitchRule τ ε)}
    (hrules : RulesFor conSet rules) : rules.length ≤ conSet.items.length := by
  have hsubset : (rules.map fun rule => lastSymbol rule.con.path) ⊆
      conSet.items.map fun entry => .ok entry.1 := by
    intro symbol hsymbol
    obtain ⟨rule, hrule, rfl⟩ := List.mem_map.1 hsymbol
    obtain ⟨name, ty, hname, hcon, -⟩ := hrules.constructors rule hrule
    exact List.mem_map.2 ⟨(name, ty), hcon, hname.symm⟩
  simpa using (List.subperm_of_subset hrules.distinct hsubset).length_le

theorem RulesFor.single (hrules : RulesFor conSet rules) {entry : String × Option (IDCalc.Ty κ)}
    (hitems : conSet.items = [entry]) : ∃ rule, rules = [rule] ∧
      lastSymbol rule.con.path = .ok entry.1 ∧ rule.argVar.isSome = entry.2.isSome := by
  have hle := hrules.length_le
  rw [hitems] at hle
  match rules, hrules, hle with
  | [], hrules, _ => exact absurd rfl hrules.nonempty
  | [rule], hrules, _ =>
    obtain ⟨name, ty, hname, hcon, hvar⟩ := hrules.constructors rule List.mem_cons_self
    rw [hitems, List.mem_singleton] at hcon
    subst hcon
    exact ⟨rule, rfl, hname, hvar⟩
  | _ :: _ :: _, _, hle => simp at hle

theorem RulesFor.oneOrTwo (hrules : RulesFor conSet rules) (hlength : conSet.items.length = 2) :
    (∃ rule, rules = [rule]) ∨ ∃ first second, rules = [first, second] ∧
      lastSymbol first.con.path ≠ lastSymbol second.con.path := by
  have hle := hrules.length_le
  rw [hlength] at hle
  match rules, hrules, hle with
  | [], hrules, _ => exact absurd rfl hrules.nonempty
  | [rule], _, _ => exact .inl ⟨rule, rfl⟩
  | [first, second], hrules, _ =>
    refine .inr ⟨first, second, rfl, ?_⟩
    simpa using hrules.distinct
  | _ :: _ :: _ :: _, _, hle => simp at hle

/-- The rule of a value's constructor binds a variable exactly if the value has
an argument. -/
theorem RulesFor.argVar_isSome
    (hrules : RulesFor conSet rules) (hvalue : IsValue conSet values name arg)
    (hrule : rule ∈ rules)
    (hname : lastSymbol rule.con.path = .ok name) : rule.argVar.isSome = arg.isSome := by
  obtain ⟨symbol, ty, hsymbol, hcon, hvar⟩ := hrules.constructors rule hrule
  obtain rfl : symbol = name := Except.ok.inj (hsymbol.symm.trans hname)
  rw [hvar]
  cases hvalue with
  | nullary hcon' =>
    rw [ty_unique hcon hcon']
    rfl
  | applied hcon' _ =>
    rw [ty_unique hcon hcon']
    rfl

theorem eval_makeBranch {argFn : τ → EmitTypedLambda τ ε} {resultTy : τ}
    (hvar : rule.argVar.isSome = arg.isSome)
    (harg : ∀ value, arg = some value → ∀ ty, eval source (argFn ty) env = some value) :
    eval source (makeBranch argFn rule.argVar rule.branch resultTy) env =
      runBranch source rule arg env.var := by
  cases hargVar : rule.argVar with
  | none => simp [makeBranch, runBranch, eval, hargVar]
  | some argVar =>
    cases arg with
    | none => simp [hargVar] at hvar
    | some value =>
      have hvalue := harg value rfl argVar.ty
      simp [makeBranch, runBranch, eval, hargVar, hvalue]

/-- The tag that the code of a switch finds in a value. -/
theorem extractConTag_eval [DecidableEq κ]
    (hshape : LayoutShape conSet (.layoutTagged tagged)) (hvalue : IsValue conSet values name arg)
    (tagVid dataVid : Nat) (source : Source ε) :
    ∃ tagExp : EmitTypedLambda τ ε, extractConTag tagVid tagged (.var dataVid) = .ok tagExp ∧
      ∀ env : RunEnv, env.vid dataVid = some (represent (.layoutTagged tagged) name arg) →
        eval source tagExp env =
          some (.word (tagIndex (TaggedLayout.tagMap tagged) name)) := by
  cases tagged with
  | taggedTagonly tagMap =>
    refine ⟨_, rfl, ?_⟩
    intro env hdata
    simp [eval, hdata, represent, TaggedLayout.tagMap]
  | taggedRecord tagMap =>
    refine ⟨_, rfl, ?_⟩
    intro env hdata
    simp [eval, hdata, represent, TaggedLayout.tagMap]
  | taggedOrNull tagMap nullName =>
    obtain ⟨htagMap, hnullary⟩ := hshape
    have hnullCon : (nullName, none) ∈ conSet.items := by
      rw [← mem_nullaryCons, hnullary]
      exact List.mem_singleton_self nullName
    have hnullKey : nullName ∈ tagMap := htagMap ▸ name_mem_listKeys hnullCon
    have hlookup : lookupConTag (.taggedOrNull tagMap nullName) [nullName] =
        .ok (tagIndex tagMap nullName) := lookupConTag_eq rfl hnullKey
    refine ⟨.elet tagVid (.var dataVid)
      (.eif (.isNull (.cast (.var dataVid) .boxedTy)) (.conTag (tagIndex tagMap nullName))
        (.selectN 1 (.cast (.var dataVid) (.tupleTy [.contagTy])))), ?_, ?_⟩
    · rw [extractConTag, hlookup]
      rfl
    · intro env hdata
      have hupdate : ∀ value, env.vid dataVid = some value →
          (env.bindVid tagVid value).vid dataVid = some value := by
        intro value hbound
        by_cases hvid : dataVid = tagVid
        · rw [hvid, RunEnv.bindVid_self]
        · exact (Function.update_of_ne hvid ..).trans hbound
      cases hvalue with
      | nullary hcon =>
        have hname : name = nullName := by
          rw [← mem_nullaryCons, hnullary] at hcon
          exact List.mem_singleton.1 hcon
        subst hname
        have hnull : env.vid dataVid = some .null := hdata
        simp [eval, hnull, hupdate _ hnull, TaggedLayout.tagMap]
      | @applied _ arg hcon _ =>
        have hrecord : env.vid dataVid =
            some (.record [.word (tagIndex tagMap name), arg]) := hdata
        simp [eval, hrecord, hupdate _ hrecord, TaggedLayout.tagMap]

theorem switches_tagged [DecidableEq κ] (hrep : property.rep = .data (.layoutTagged tagged))
    (hshape : LayoutShape conSet (.layoutTagged tagged)) (hvalue : IsValue conSet values name arg) :
    Switches τ ε conSet property name arg (represent (.layoutTagged tagged) name arg) := by
  intro dataVid tagVid dataExp dataTy rules defaultExp resultTy source env hrules hdata
  have htagMap : TaggedLayout.tagMap tagged = conSet.listKeys := by
    cases tagged with
    | taggedTagonly tagMap => exact hshape.1
    | taggedRecord tagMap => exact hshape
    | taggedOrNull tagMap nullName => exact hshape.1
  have hname : name ∈ TaggedLayout.tagMap tagged := htagMap ▸ hvalue.mem_listKeys
  let inner : RunEnv := env.bindVid dataVid (represent (.layoutTagged tagged) name arg)
  have hinner : inner.vid dataVid = some (represent (.layoutTagged tagged) name arg) :=
    RunEnv.bindVid_self ..
  obtain ⟨tagExp, htagExp, htag⟩ :=
    extractConTag_eval (τ := τ) hshape hvalue tagVid dataVid source
  obtain ⟨branches, hbranches, hselect, hdefault⟩ :=
    mapM_lookupConTag source (extractTaggedConArg (.var dataVid)) resultTy hname inner rules
      (fun rule hrule => by
        obtain ⟨symbol, ty, hsymbol, hcon, -⟩ := hrules.constructors rule hrule
        exact ⟨symbol, hsymbol, htagMap ▸ name_mem_listKeys hcon⟩)
      hrules.distinct
  refine ⟨.elet dataVid (.exp dataExp dataTy)
    (.eswitch tagExp branches (.exp defaultExp resultTy)), ?_, ?_, ?_⟩
  · have hextract : extractLayout property = .ok (.layoutTagged tagged) := by
      rw [extractLayout, hrep]
    unfold switchCon
    rw [hextract]
    change (extractConTag tagVid tagged (.var dataVid) >>= _) = _
    rw [htagExp]
    refine Eq.trans (b := Except.ok branches >>= fun branches =>
      Except.ok (EmitTypedLambda.elet dataVid (.exp dataExp dataTy)
        (.eswitch tagExp branches (.exp defaultExp resultTy)))) ?_ rfl
    rw [← hbranches]
    rfl
  · intro rule hrule hrulename
    have hbranch := hselect rule hrule hrulename
    have hrun : eval source (makeBranch (extractTaggedConArg (.var dataVid)) rule.argVar
        rule.branch resultTy) inner = runBranch source rule arg env.var := by
      refine eval_makeBranch (hrules.argVar_isSome hvalue hrule hrulename) ?_
      intro value hsome ty
      subst hsome
      cases tagged with
      | taggedTagonly tagMap =>
        cases hvalue with
        | applied hcon _ => exact absurd hcon (not_applied_of_nullary hshape.2)
      | taggedRecord tagMap => simp [extractTaggedConArg, eval, hinner, represent]
      | taggedOrNull tagMap nullName => simp [extractTaggedConArg, eval, hinner, represent]
    rw [eval, eval, hdata]
    change eval source (.eswitch tagExp branches (.exp defaultExp resultTy)) inner = _
    rw [eval, htag inner hinner]
    simp only [hbranch, hrun]
  · intro hnone
    have hbranch := hdefault hnone
    rw [eval, eval, hdata]
    change eval source (.eswitch tagExp branches (.exp defaultExp resultTy)) inner = _
    rw [eval, htag inner hinner]
    simp only [hbranch]
    rfl

/-- The constructor of a value of a datatype with a single constructor. -/
theorem IsValue.of_single {con : String} {ty : Option (IDCalc.Ty κ)}
    (hitems : conSet.items = [(con, ty)]) (hvalue : IsValue conSet values name arg) :
    name = con ∧ arg.isSome = ty.isSome := by
  cases hvalue with
  | nullary hcon =>
    rw [hitems, List.mem_singleton] at hcon
    obtain ⟨rfl, rfl⟩ := Prod.mk.inj hcon
    exact ⟨rfl, rfl⟩
  | applied hcon _ =>
    rw [hitems, List.mem_singleton] at hcon
    obtain ⟨rfl, rfl⟩ := Prod.mk.inj hcon
    exact ⟨rfl, rfl⟩

theorem runsCase_one {code : EmitTypedLambda τ ε}
    (hrun : lastSymbol rule.con.path = .ok name →
      eval source code env = runBranch source rule arg env.var)
    (hdefault : lastSymbol rule.con.path ≠ .ok name →
      eval source code env = source defaultExp env.var) :
    RunsCase source code [rule] defaultExp name arg env := by
  constructor
  · intro other hother
    obtain rfl := List.mem_singleton.1 hother
    exact hrun
  · intro hnone
    exact hdefault (hnone rule List.mem_cons_self)

theorem runsCase_two {code : EmitTypedLambda τ ε}
    {first second : SwitchRule τ ε}
    (hlisted : lastSymbol first.con.path = .ok name ∨ lastSymbol second.con.path = .ok name)
    (hfirst : lastSymbol first.con.path = .ok name →
      eval source code env = runBranch source first arg env.var)
    (hsecond : lastSymbol second.con.path = .ok name →
      eval source code env = runBranch source second arg env.var) :
    RunsCase source code [first, second] defaultExp name arg env := by
  constructor
  · intro rule hrule
    rcases List.mem_pair.1 hrule with rfl | rfl
    · exact hfirst
    · exact hsecond
  · intro hnone
    rcases hlisted with hname | hname
    · exact absurd hname (hnone first (by simp))
    · exact absurd hname (hnone second (by simp))

theorem switches_single [DecidableEq κ]
    (hrep : property.rep = .data .layoutSingle) (hshape : LayoutShape conSet .layoutSingle)
    (hvalue : IsValue conSet values name arg) :
    Switches τ ε conSet property name arg (represent .layoutSingle name arg) := by
  intro dataVid tagVid dataExp dataTy rules defaultExp resultTy source env hrules hdata
  obtain ⟨con, hitems⟩ := hshape
  obtain ⟨rfl, -⟩ := hvalue.of_single hitems
  obtain ⟨⟨conInfo, argVar, branch⟩, rfl, hname, hvar⟩ := hrules.single hitems
  cases argVar with
  | some argVar => simp at hvar
  | none =>
    have hextract : extractLayout property = .ok .layoutSingle := by
      rw [extractLayout, hrep]
    refine ⟨.exp branch resultTy, ?_, runsCase_one (fun _ => ?_) (absurd hname)⟩
    · unfold switchCon
      rw [hextract]
      rfl
    · simp [eval, runBranch]

theorem eval_extractUntaggedArg {wrap : Bool}
    {dataExp : EmitTypedLambda τ ε} {arg : MValue}
    (hdata : eval source dataExp env = some (untagged wrap arg)) (argTy : τ) :
    eval source (extractUntaggedArg wrap dataExp argTy) env = some arg := by
  cases wrap with
  | true => simp [extractUntaggedArg, eval, hdata, untagged]
  | false => simpa [extractUntaggedArg, eval, untagged] using hdata

theorem switches_singleArg [DecidableEq κ]
    {wrap : Bool} (hrep : property.rep = .data (.layoutSingleArg wrap))
    (hshape : LayoutShape conSet (.layoutSingleArg wrap))
    (hvalue : IsValue conSet values name arg) :
    Switches τ ε conSet property name arg (represent (.layoutSingleArg wrap) name arg) := by
  intro dataVid tagVid dataExp dataTy rules defaultExp resultTy source env hrules hdata
  obtain ⟨con, ty, hitems⟩ := hshape
  obtain ⟨rfl, harg⟩ := hvalue.of_single hitems
  obtain ⟨⟨conInfo, argVar, branch⟩, rfl, hname, hvar⟩ := hrules.single hitems
  obtain ⟨arg, rfl⟩ := Option.isSome_iff_exists.1 harg
  cases argVar with
  | none => simp at hvar
  | some argVar =>
    have hextract : extractLayout property = .ok (.layoutSingleArg wrap) := by
      rw [extractLayout, hrep]
    refine ⟨makeBranch (extractUntaggedArg wrap (.exp dataExp dataTy)) (some argVar) branch
      resultTy, ?_, runsCase_one (fun _ => ?_) (absurd hname)⟩
    · unfold switchCon
      rw [hextract]
      rfl
    · have hbound : (⟨conInfo, some argVar, branch⟩ : SwitchRule τ ε).argVar.isSome =
          (some arg).isSome := rfl
      refine eval_makeBranch hbound ?_
      rintro value ⟨⟩ argTy
      refine eval_extractUntaggedArg ?_ argTy
      simpa [eval, represent] using hdata

theorem switches_ref [DecidableEq κ]
    (hrep : property.rep = .data .layoutRef) (hshape : LayoutShape conSet .layoutRef)
    (hvalue : IsValue conSet values name arg) :
    Switches τ ε conSet property name arg (represent .layoutRef name arg) := by
  intro dataVid tagVid dataExp dataTy rules defaultExp resultTy source env hrules hdata
  obtain ⟨con, ty, hitems⟩ := hshape
  obtain ⟨rfl, harg⟩ := hvalue.of_single hitems
  obtain ⟨⟨conInfo, argVar, branch⟩, rfl, hname, hvar⟩ := hrules.single hitems
  obtain ⟨arg, rfl⟩ := Option.isSome_iff_exists.1 harg
  cases argVar with
  | none => simp at hvar
  | some argVar =>
    have hextract : extractLayout property = .ok .layoutRef := by
      rw [extractLayout, hrep]
    refine ⟨.tlLet argVar.id argVar.ty (.refDeref argVar.ty (.exp dataExp dataTy))
      (.exp branch resultTy), ?_, runsCase_one (fun _ => ?_) (absurd hname)⟩
    · unfold switchCon
      rw [hextract]
      rfl
    · have hbox : source dataExp env.var = some (.ref arg) := hdata
      simp [eval, hbox, runBranch]

theorem switchCon_choice_one {symbol : String}
    (hrep : property.rep = .data (.layoutChoice falseName)) {conInfo : ConInfo}
    (hsymbol : lastSymbol conInfo.path = .ok symbol) {dataVid tagVid : Nat}
    {branch : ε} {dataTy resultTy : τ} :
    switchCon dataVid tagVid property dataExp dataTy [⟨conInfo, none, branch⟩] defaultExp
        resultTy = .ok (.eif (.exp dataExp dataTy)
        (.exp (if symbol = falseName then defaultExp else branch) resultTy)
        (.exp (if symbol = falseName then branch else defaultExp) resultTy)) := by
  unfold switchCon
  simp only [extractLayout, hrep, hsymbol, bind, Except.bind, pure, Except.pure]
  split_ifs <;> rfl

theorem switchCon_choice_two {symbol : String}
    (hrep : property.rep = .data (.layoutChoice falseName)) {conInfo conInfo' : ConInfo}
    (hsymbol : lastSymbol conInfo.path = .ok symbol) {dataVid tagVid : Nat}
    {branch branch' : ε} {dataTy resultTy : τ} :
    switchCon dataVid tagVid property dataExp dataTy
        [⟨conInfo, none, branch⟩, ⟨conInfo', none, branch'⟩] defaultExp resultTy =
      .ok (.eif (.exp dataExp dataTy)
        (.exp (if symbol = falseName then branch' else branch) resultTy)
        (.exp (if symbol = falseName then branch else branch') resultTy)) := by
  unfold switchCon
  simp only [extractLayout, hrep, hsymbol, bind, Except.bind, pure, Except.pure]
  split_ifs <;> rfl

theorem switches_choice [DecidableEq κ] (hrep : property.rep = .data (.layoutChoice falseName))
    (hshape : LayoutShape conSet (.layoutChoice falseName))
    (hvalue : IsValue conSet values name arg) :
    Switches τ ε conSet property name arg
      (represent (.layoutChoice falseName) name arg) := by
  intro dataVid tagVid dataExp dataTy rules defaultExp resultTy source env hrules hdata
  obtain ⟨trueName, hitems⟩ := hshape
  have hextract : extractLayout property = .ok (.layoutChoice falseName) := by
    rw [extractLayout, hrep]
  -- neither constructor takes an argument
  have hcons : ∀ {symbol : String} {ty : Option (IDCalc.Ty κ)}, (symbol, ty) ∈ conSet.items →
      (symbol = falseName ∨ symbol = trueName) ∧ ty = none := by
    intro symbol ty hcon
    rw [hitems] at hcon
    simp only [List.mem_cons, Prod.mk.injEq, List.not_mem_nil, or_false] at hcon
    rcases hcon with ⟨rfl, rfl⟩ | ⟨rfl, rfl⟩
    · exact ⟨.inl rfl, rfl⟩
    · exact ⟨.inr rfl, rfl⟩
  have harg : arg = none := by
    cases hvalue with
    | nullary _ => rfl
    | applied hcon _ => exact absurd (hcons hcon).2 (by simp)
  have hnames : name = falseName ∨ name = trueName := by
    cases hvalue with
    | nullary hcon => exact (hcons hcon).1
    | applied hcon _ => exact (hcons hcon).1
  have hrule : ∀ rule ∈ rules, rule.argVar = none ∧
      (lastSymbol rule.con.path = .ok falseName ∨ lastSymbol rule.con.path = .ok trueName) := by
    intro rule hrule
    obtain ⟨symbol, ty, hsymbol, hcon, hvar⟩ := hrules.constructors rule hrule
    obtain ⟨hsymbols, rfl⟩ := hcons hcon
    refine ⟨by simpa using hvar, ?_⟩
    rcases hsymbols with rfl | rfl
    · exact .inl hsymbol
    · exact .inr hsymbol
  subst harg
  have hcond : source dataExp env.var = some (.word (if name = falseName then 0 else 1)) := hdata
  have hif : ∀ ifTrue ifFalse : ε, eval source (.eif (.exp dataExp dataTy)
      (.exp ifTrue resultTy) (.exp ifFalse resultTy)) env =
        source (if name = falseName then ifFalse else ifTrue) env.var := by
    intro ifTrue ifFalse
    by_cases hname : name = falseName <;> simp [eval, hcond, hname]
  have htrue : ¬ trueName = falseName := by
    have hnodup := keys_nodup conSet
    simp only [hitems, List.map_cons, List.map_nil, List.nodup_cons, List.mem_singleton] at hnodup
    exact fun heq => hnodup.1 heq.symm
  rcases hrules.oneOrTwo (by simp [hitems]) with ⟨rule, rfl⟩ | ⟨first, second, rfl, hne⟩
  · obtain ⟨conInfo, argVar, branch⟩ := rule
    obtain ⟨hvar, hsymbol⟩ := hrule _ List.mem_cons_self
    obtain rfl : argVar = none := hvar
    rcases hsymbol with hsymbol | hsymbol
    · refine ⟨_, switchCon_choice_one hrep hsymbol, runsCase_one ?_ ?_⟩
      · intro hname
        obtain rfl : falseName = name := Except.ok.inj (hsymbol.symm.trans hname)
        simp [hif]
      · intro hname
        have hnot : name ≠ falseName := by
          rintro rfl
          exact hname hsymbol
        simp [hif, hnot]
    · refine ⟨_, switchCon_choice_one hrep hsymbol, runsCase_one ?_ ?_⟩
      · intro hname
        obtain rfl : trueName = name := Except.ok.inj (hsymbol.symm.trans hname)
        simp [hif, htrue]
      · intro hname
        have hfalse : name = falseName := by
          refine hnames.resolve_right ?_
          rintro rfl
          exact hname hsymbol
        simp [hif, htrue, hfalse]
  · obtain ⟨conInfo, argVar, branch⟩ := first
    obtain ⟨conInfo', argVar', branch'⟩ := second
    obtain ⟨hvar, hsymbol⟩ := hrule _ List.mem_cons_self
    obtain ⟨hvar', hsymbol'⟩ := hrule _ (List.mem_cons_of_mem _ List.mem_cons_self)
    obtain rfl : argVar = none := hvar
    obtain rfl : argVar' = none := hvar'
    rcases hsymbol with hsymbol | hsymbol
    · have hother : lastSymbol conInfo'.path = .ok trueName :=
        hsymbol'.resolve_left fun heq => hne (hsymbol.trans heq.symm)
      refine ⟨_, switchCon_choice_two hrep hsymbol, runsCase_two ?_ ?_ ?_⟩
      · rcases hnames with rfl | rfl
        · exact .inl hsymbol
        · exact .inr hother
      · intro hname
        obtain rfl : falseName = name := Except.ok.inj (hsymbol.symm.trans hname)
        simp [hif]
      · intro hname
        obtain rfl : trueName = name := Except.ok.inj (hother.symm.trans hname)
        simp [hif, htrue]
    · have hother : lastSymbol conInfo'.path = .ok falseName :=
        hsymbol'.resolve_right fun heq => hne (hsymbol.trans heq.symm)
      refine ⟨_, switchCon_choice_two hrep hsymbol, runsCase_two ?_ ?_ ?_⟩
      · rcases hnames with rfl | rfl
        · exact .inr hother
        · exact .inl hsymbol
      · intro hname
        obtain rfl : trueName = name := Except.ok.inj (hsymbol.symm.trans hname)
        simp [hif, htrue]
      · intro hname
        obtain rfl : falseName = name := Except.ok.inj (hother.symm.trans hname)
        simp [hif, htrue]

theorem length_eq_argCons_add_nullaryCons (items : List (String × Option (IDCalc.Ty κ))) :
    items.length = (argCons items).length + (nullaryCons items).length := by
  induction items with
  | nil => rfl
  | cons entry rest ih =>
    obtain ⟨name, ty⟩ := entry
    cases ty <;> simp [argCons, nullaryCons] at ih ⊢ <;> omega

/-- The properties that the layouts take for those of non-null pointers. -/
def NonNullPointer (property : Option (Property κ)) : Prop :=
  ∃ prop, property = some prop ∧ (prop.rep = .ptr ∨ prop.rep = .data .layoutRef)

theorem nonNullPointer_of_wrapArgOrNull [DecidableEq κ] {property : Option (Property κ)}
    (hwrap : wrapArgOrNull property = false) : NonNullPointer property := by
  cases property with
  | none => simp [wrapArgOrNull] at hwrap
  | some prop =>
    obtain ⟨tag, size, rep⟩ := prop
    cases tag with
    | anytag => simp [wrapArgOrNull] at hwrap
    | tag tag =>
      cases tag with
      | unboxed => simp [wrapArgOrNull] at hwrap
      | boxed =>
        refine ⟨_, rfl, ?_⟩
        have hregarded : canBeRegardedAs ⟨.tag .boxed, size, rep⟩ recordProp = true := by
          simpa [wrapArgOrNull] using hwrap
        exact ((canBeRegardedAs_recordProp size rep).1 hregarded).2

theorem untagged_ne_null {wrap : Bool} {arg : MValue} (hwrap : wrap = false → arg ≠ .null) :
    untagged wrap arg ≠ .null := by
  cases wrap with
  | true => simp [untagged]
  | false => exact hwrap rfl

/-- The code of a switch over a null pointer or an argument. -/
def argOrNullCode (wrap : Bool) (dataVid : Nat) (dataExp : ε) (dataTy resultTy : τ)
    (argVar : Option (VarInfo τ)) (ifDataExp ifNullExp : ε) : EmitTypedLambda τ ε :=
  .elet dataVid (.exp dataExp dataTy)
    (.eif (.isNull (.cast (.var dataVid) .boxedTy)) (.exp ifNullExp resultTy)
      (makeBranch (extractUntaggedArg wrap (.exp dataExp dataTy)) argVar ifDataExp resultTy))

theorem eval_argOrNullCode {wrap : Bool}
    (hdata : source dataExp env.var = some (represent (.layoutArgOrNull wrap) name arg))
    (hnull : ∀ value, arg = some value → untagged wrap value ≠ .null)
    (dataVid : Nat) (dataTy resultTy : τ) (rule : SwitchRule τ ε) (ifNullExp : ε) :
    eval source (argOrNullCode wrap dataVid dataExp dataTy resultTy rule.argVar rule.branch
        ifNullExp) env =
      if arg.isSome then runBranch source rule arg env.var else source ifNullExp env.var := by
  cases arg with
  | none =>
    have hpointer : source dataExp env.var = some .null := hdata
    simp [argOrNullCode, eval, hpointer]
  | some value =>
    have hpointer : source dataExp env.var = some (untagged wrap value) := hdata
    have hbranch : eval source (makeBranch (extractUntaggedArg wrap (.exp dataExp dataTy))
        rule.argVar rule.branch resultTy) (env.bindVid dataVid (untagged wrap value)) =
          runBranch source rule (some value) env.var := by
      cases hargVar : rule.argVar with
      | none => simp [makeBranch, runBranch, eval, hargVar]
      | some argVar =>
        rw [← hargVar]
        refine eval_makeBranch (by simp [hargVar]) ?_
        rintro _ ⟨⟩ argTy
        refine eval_extractUntaggedArg ?_ argTy
        simpa [eval] using hpointer
    have hisNull : eval source (.isNull (.cast (.var dataVid) .boxedTy) : EmitTypedLambda τ ε)
        (env.bindVid dataVid (untagged wrap value)) = some (.word 0) := by
      simp [eval, hnull value rfl]
    have hbound : eval source (.exp dataExp dataTy) env = some (untagged wrap value) := by
      rw [eval, hpointer]
    rw [argOrNullCode, eval, hbound]
    change eval source (.eif (.isNull (.cast (.var dataVid) .boxedTy)) _ _) _ = _
    rw [eval, hisNull]
    simp [hbranch]

theorem switches_argOrNull [DecidableEq κ]
    {wrap : Bool} (hrep : property.rep = .data (.layoutArgOrNull wrap))
    (hshape : LayoutShape conSet (.layoutArgOrNull wrap))
    (hvalue : IsValue conSet values name arg)
    (hnull : ∀ value, arg = some value → untagged wrap value ≠ .null) :
    Switches τ ε conSet property name arg (represent (.layoutArgOrNull wrap) name arg) := by
  intro dataVid tagVid dataExp dataTy rules defaultExp resultTy source env hrules hdata
  obtain ⟨con, ty, nullName, hargs, hnullary, -⟩ := hshape
  have hextract : extractLayout property = .ok (.layoutArgOrNull wrap) := by
    rw [extractLayout, hrep]
  have happlied : ∀ {symbol : String} {ty' : IDCalc.Ty κ}, (symbol, some ty') ∈ conSet.items →
      symbol = con := by
    intro symbol ty' hcon
    rw [← mem_argCons, hargs, List.mem_singleton] at hcon
    exact congrArg Prod.fst hcon
  have hempty : ∀ {symbol : String}, (symbol, none) ∈ conSet.items → symbol = nullName := by
    intro symbol hcon
    rw [← mem_nullaryCons, hnullary] at hcon
    exact List.mem_singleton.1 hcon
  have hne : con ≠ nullName := by
    rintro rfl
    have hcon : (con, some ty) ∈ conSet.items := mem_argCons.1 (by simp [hargs])
    have hcon' : (con, none) ∈ conSet.items := mem_nullaryCons.1 (by simp [hnullary])
    exact absurd (ty_unique hcon hcon') (by simp)
  have hlength : conSet.items.length = 2 := by
    rw [length_eq_argCons_add_nullaryCons, hargs, hnullary]
    rfl
  have hname : name = if arg.isSome then con else nullName := by
    cases hvalue with
    | nullary hcon => exact hempty hcon
    | applied hcon _ => exact happlied hcon
  have hrule : ∀ rule ∈ rules, lastSymbol rule.con.path =
      .ok (if rule.argVar.isSome then con else nullName) := by
    intro rule hrule
    obtain ⟨symbol, ty', hsymbol, hcon, hvar⟩ := hrules.constructors rule hrule
    cases ty' with
    | none =>
      rw [hsymbol, hvar, hempty hcon]
      rfl
    | some ty' =>
      rw [hsymbol, hvar, happlied hcon]
      rfl
  -- a rule is the one of the value if both or neither have an argument
  have hmatch : ∀ rule ∈ rules, lastSymbol rule.con.path = .ok name ↔
      rule.argVar.isSome = arg.isSome := by
    intro rule hmem
    rw [hrule rule hmem, hname]
    cases rule.argVar.isSome <;> cases arg.isSome <;> simp [hne, hne.symm]
  have hcase := eval_argOrNullCode hdata hnull dataVid dataTy resultTy
  rcases hrules.oneOrTwo hlength with ⟨⟨conInfo, argVar, branch⟩, rfl⟩ |
    ⟨⟨conInfo, argVar, branch⟩, ⟨conInfo', argVar', branch'⟩, rfl, hdiffer⟩
  · have hfirst := hmatch _ List.mem_cons_self
    cases argVar with
    | none =>
      have hcode := hcase ⟨conInfo, none, defaultExp⟩ branch
      refine ⟨argOrNullCode wrap dataVid dataExp dataTy resultTy none defaultExp branch, ?_,
        runsCase_one ?_ ?_⟩
      · unfold switchCon
        rw [hextract]
        rfl
      · intro hrulename
        have harg : arg.isSome = false := (hfirst.1 hrulename).symm
        rw [hcode, harg]
        simp
      · intro hrulename
        have harg : arg.isSome = true := by
          cases arg with
          | none => exact absurd (hfirst.2 rfl) hrulename
          | some _ => rfl
        rw [hcode, harg]
        simp
    | some argVar =>
      have hcode := hcase ⟨conInfo, some argVar, branch⟩ defaultExp
      refine ⟨argOrNullCode wrap dataVid dataExp dataTy resultTy (some argVar) branch
        defaultExp, ?_, runsCase_one ?_ ?_⟩
      · unfold switchCon
        rw [hextract]
        rfl
      · intro hrulename
        have harg : arg.isSome = true := (hfirst.1 hrulename).symm
        rw [hcode, harg]
        simp
      · intro hrulename
        have harg : arg.isSome = false := by
          simpa using mt hfirst.2 hrulename
        rw [hcode, harg]
        simp
  · have hfirst := hmatch _ List.mem_cons_self
    have hsecond := hmatch _ (List.mem_cons_of_mem _ List.mem_cons_self)
    have hfirstName := hrule _ List.mem_cons_self
    have hsecondName := hrule _ (List.mem_cons_of_mem _ List.mem_cons_self)
    cases argVar with
    | none =>
      cases argVar' with
      | none => exact absurd (hfirstName.trans hsecondName.symm) hdiffer
      | some argVar' =>
        have hcode := hcase ⟨conInfo', some argVar', branch'⟩ branch
        refine ⟨argOrNullCode wrap dataVid dataExp dataTy resultTy (some argVar') branch'
          branch, ?_, runsCase_two ?_ ?_ ?_⟩
        · unfold switchCon
          rw [hextract]
          rfl
        · rw [hfirst, hsecond]
          cases arg <;> simp
        · intro hrulename
          have harg : arg.isSome = false := (hfirst.1 hrulename).symm
          rw [hcode, harg]
          simp
        · intro hrulename
          have harg : arg.isSome = true := (hsecond.1 hrulename).symm
          rw [hcode, harg]
          simp
    | some argVar =>
      cases argVar' with
      | some argVar' => exact absurd (hfirstName.trans hsecondName.symm) hdiffer
      | none =>
        have hcode := hcase ⟨conInfo, some argVar, branch⟩ branch'
        refine ⟨argOrNullCode wrap dataVid dataExp dataTy resultTy (some argVar) branch
          branch', ?_, runsCase_two ?_ ?_ ?_⟩
        · unfold switchCon
          rw [hextract]
          rfl
        · rw [hfirst, hsecond]
          cases arg <;> simp
        · intro hrulename
          have harg : arg.isSome = true := (hfirst.1 hrulename).symm
          rw [hcode, harg]
          simp
        · intro hrulename
          have harg : arg.isSome = false := (hsecond.1 hrulename).symm
          rw [hcode, harg]
          simp

/-! Every layout. -/

/-- Where an argument is stored without a wrapper beside a null pointer, its
type has the property of a non-null pointer. -/
theorem untagged_ne_null_of_pointers [DecidableEq κ] {wrap : Bool}
    (hshape : LayoutShape conSet (.layoutArgOrNull wrap))
    (hpointers : ∀ name ty nullName, argCons conSet.items = [(name, ty)] →
      nullaryCons conSet.items = [nullName] → NonNullPointer (propertyOf ty) →
        ¬ values name .null) {arg : MValue} (hvalue : IsValue conSet values name (some arg)) :
    untagged wrap arg ≠ .null := by
  obtain ⟨con, ty, nullName, hargs, hnullary, hwrap⟩ := hshape
  refine untagged_ne_null ?_
  rintro rfl rfl
  cases hvalue with
  | applied hcon harg =>
    rw [← mem_argCons, hargs, List.mem_singleton] at hcon
    obtain ⟨rfl, rfl⟩ := Prod.mk.inj hcon
    exact hpointers _ _ nullName hargs hnullary
      (nonNullPointer_of_wrapArgOrNull hwrap.symm) harg

/-- Values of distinct constructors are represented differently. -/
theorem represent_inj [DecidableEq κ] {layout : Layout}
    (hshape : LayoutShape conSet layout)
    (hne : ∀ wrap name arg, layout = .layoutArgOrNull wrap →
      IsValue conSet values name (some arg) → untagged wrap arg ≠ .null)
    {name' : String} {arg' : Option MValue} (hvalue : IsValue conSet values name arg)
    (hvalue' : IsValue conSet values name' arg')
    (heq : represent layout name arg = represent layout name' arg') : name = name' := by
  have hkeys := hvalue.mem_listKeys
  have hkeys' := hvalue'.mem_listKeys
  cases layout with
  | layoutTagged tagged =>
    cases tagged with
    | taggedRecord tagMap =>
      obtain rfl : tagMap = conSet.listKeys := hshape
      refine tagIndex_inj hkeys hkeys' ?_
      simp only [represent, MValue.record.injEq, List.cons.injEq, MValue.word.injEq] at heq
      exact heq.1
    | taggedTagonly tagMap =>
      obtain ⟨rfl, -⟩ := hshape
      refine tagIndex_inj hkeys hkeys' ?_
      simpa only [represent, MValue.word.injEq] using heq
    | taggedOrNull tagMap nullName =>
      obtain ⟨rfl, hnullary⟩ := hshape
      have hempty : ∀ {symbol : String}, (symbol, none) ∈ conSet.items →
          symbol = nullName := by
        intro symbol hcon
        rw [← mem_nullaryCons, hnullary] at hcon
        exact List.mem_singleton.1 hcon
      cases hvalue with
      | nullary hcon =>
        cases hvalue' with
        | nullary hcon' => rw [hempty hcon, hempty hcon']
        | applied _ _ => cases heq
      | applied _ _ =>
        cases hvalue' with
        | nullary _ => cases heq
        | applied _ _ =>
          refine tagIndex_inj hkeys hkeys' ?_
          simp only [represent, MValue.record.injEq, List.cons.injEq,
            MValue.word.injEq] at heq
          exact heq.1
  | layoutArgOrNull wrap =>
    obtain ⟨con, ty, nullName, hargs, hnullary, -⟩ := hshape
    cases hvalue with
    | nullary hcon =>
      cases hvalue' with
      | nullary hcon' =>
        rw [← mem_nullaryCons, hnullary, List.mem_singleton] at hcon hcon'
        rw [hcon, hcon']
      | applied hcon' harg' =>
        exact absurd heq.symm (hne wrap _ _ rfl (.applied hcon' harg'))
    | applied hcon harg =>
      cases hvalue' with
      | nullary hcon' => exact absurd heq (hne wrap _ _ rfl (.applied hcon harg))
      | applied hcon' _ =>
        rw [← mem_argCons, hargs, List.mem_singleton] at hcon hcon'
        rw [(Prod.mk.inj hcon).1, (Prod.mk.inj hcon').1]
  | layoutSingleArg wrap =>
    obtain ⟨con, ty, hitems⟩ := hshape
    rw [(hvalue.of_single hitems).1, (hvalue'.of_single hitems).1]
  | layoutSingle =>
    obtain ⟨con, hitems⟩ := hshape
    rw [(hvalue.of_single hitems).1, (hvalue'.of_single hitems).1]
  | layoutRef =>
    obtain ⟨con, ty, hitems⟩ := hshape
    rw [(hvalue.of_single hitems).1, (hvalue'.of_single hitems).1]
  | layoutChoice falseName =>
    obtain ⟨trueName, hitems⟩ := hshape
    have hnames : ∀ {symbol : String}, symbol ∈ conSet.listKeys →
        symbol = falseName ∨ symbol = trueName := by
      intro symbol hsymbol
      simpa [SortedMap.listKeys, hitems] using hsymbol
    by_cases hname : name = falseName
    · by_cases hname' : name' = falseName
      · rw [hname, hname']
      · simp [represent, hname, hname'] at heq
    · by_cases hname' : name' = falseName
      · simp [represent, hname, hname'] at heq
      · rw [(hnames hkeys).resolve_left hname, (hnames hkeys').resolve_left hname']

/-- The null pointer represents a nullary constructor, or the argument of a
single constructor that is null itself. -/
theorem represent_null [DecidableEq κ] {layout : Layout}
    (hshape : LayoutShape conSet layout)
    (hne : ∀ wrap name arg, layout = .layoutArgOrNull wrap →
      IsValue conSet values name (some arg) → untagged wrap arg ≠ .null)
    (hvalue : IsValue conSet values name arg)
    (hnull : represent layout name arg = .null) :
    arg = none ∨ arg = some .null ∧ conSet.items.length = 1 := by
  cases arg with
  | none => exact .inl rfl
  | some arg =>
    right
    cases layout with
    | layoutTagged tagged => cases tagged <;> cases hnull
    | layoutArgOrNull wrap => exact absurd hnull (hne wrap name arg rfl hvalue)
    | layoutSingleArg wrap =>
      obtain ⟨con, ty, hitems⟩ := hshape
      cases wrap with
      | true => cases hnull
      | false => exact ⟨congrArg some hnull, by simp [hitems]⟩
    | layoutChoice falseName => cases hnull
    | layoutSingle => cases hnull
    | layoutRef => cases hnull

theorem switches_represent [DecidableEq κ]
    {layout : Layout} (hrep : property.rep = .data layout) (hshape : LayoutShape conSet layout)
    (hne : ∀ wrap name arg, layout = .layoutArgOrNull wrap →
      IsValue conSet values name (some arg) → untagged wrap arg ≠ .null)
    (hvalue : IsValue conSet values name arg) :
    Switches τ ε conSet property name arg (represent layout name arg) := by
  cases layout with
  | layoutTagged tagged => exact switches_tagged hrep hshape hvalue
  | layoutArgOrNull wrap =>
    refine switches_argOrNull hrep hshape hvalue ?_
    rintro value rfl
    exact hne wrap name value rfl hvalue
  | layoutSingleArg wrap => exact switches_singleArg hrep hshape hvalue
  | layoutChoice falseName => exact switches_choice hrep hshape hvalue
  | layoutSingle => exact switches_single hrep hshape hvalue
  | layoutRef => exact switches_ref hrep hshape hvalue

/-- The representation of a datatype is faithful, if an argument that is stored
as it is beside a null pointer is never null itself. -/
theorem representation_faithful [DecidableEq κ] (τ ε : Type) (conSet : ConSet κ)
    (property : Property κ) (values : String → MValue → Prop)
    (hlayout : HasLayout conSet property)
    (hpointers : ∀ name ty nullName, argCons conSet.items = [(name, ty)] →
      nullaryCons conSet.items = [nullName] → NonNullPointer (propertyOf ty) →
        ¬ values name .null) :
    ∃ rep : String → Option MValue → MValue,
      (∀ name arg, IsValue conSet values name arg →
        Composes τ ε property name arg (rep name arg) ∧
          Switches τ ε conSet property name arg (rep name arg)) ∧
      (∀ name arg name' arg', IsValue conSet values name arg →
        IsValue conSet values name' arg' → rep name arg = rep name' arg' → name = name') ∧
      ∀ name arg, IsValue conSet values name arg → rep name arg = .null →
        arg = none ∨ arg = some .null ∧ conSet.items.length = 1 := by
  obtain ⟨layout, hrep, hshape⟩ := layoutShape_of_hasLayout hlayout
  have hne : ∀ wrap name arg, layout = .layoutArgOrNull wrap →
      IsValue conSet values name (some arg) → untagged wrap arg ≠ .null := by
    rintro wrap name arg rfl hvalue
    exact untagged_ne_null_of_pointers hshape hpointers hvalue
  refine ⟨represent layout, ?_, ?_, ?_⟩
  · intro name arg hvalue
    refine ⟨?_, switches_represent hrep hshape hne hvalue⟩
    cases hvalue with
    | nullary hcon => exact composes_nullary hrep hshape hcon
    | applied hcon _ => exact composes_applied hrep hshape hcon _
  · intro name arg name' arg' hvalue hvalue' heq
    exact represent_inj hshape hne hvalue hvalue' heq
  · intro name arg hvalue hnull
    exact represent_null hshape hne hvalue hnull

/-- `datatype foo = Foo of int * foo | Bar`. -/
theorem representation_faithful_pointers :
    let conSet : ConSet Unit := SortedMap.ofList [("Foo", some .tyrecord), ("Bar", none)]
    let values := fun (_ : String) value => ∃ int foo, value = MValue.record [int, foo]
    HasLayout conSet (recordProp (.layoutArgOrNull false)) ∧
    ∃ rep : String → Option MValue → MValue,
      (∀ name arg, IsValue conSet values name arg →
        Composes Unit Unit (recordProp (.layoutArgOrNull false) : Property Unit) name arg
            (rep name arg) ∧
          Switches Unit Unit conSet (recordProp (.layoutArgOrNull false)) name arg
            (rep name arg)) ∧
      (∀ name arg name' arg', IsValue conSet values name arg →
        IsValue conSet values name' arg' → rep name arg = rep name' arg' → name = name') ∧
      ∀ name arg, IsValue conSet values name arg → rep name arg = .null →
        arg = none ∨ arg = some .null ∧ conSet.items.length = 1 := by
  intro conSet values
  have hlayout : HasLayout conSet (recordProp (.layoutArgOrNull false)) := .inl (by decide)
  refine ⟨hlayout, representation_faithful Unit Unit conSet _ values hlayout ?_⟩
  rintro name ty nullName - - - ⟨int, foo, ⟨⟩⟩

/-- A record of the source, which has a type of `recordProp`. -/
def compileRecord (fields : List (EmitTypedLambda τ ε)) (recordTy : τ) :
    EmitTypedLambda τ ε :=
  if fields.isEmpty then .cast .null (.ty recordTy) else .tuple fields

/-- The term of a constructor has one value. -/
theorem composes_unique [Inhabited τ] [Inhabited ε] {value value' : MValue}
    (hcomposes : Composes τ ε property name arg value)
    (hcomposes' : Composes τ ε property name arg value') : value = value' := by
  have hargs : ∃ (argTy : Option τ) (argExp : Option ε),
      EvaluatesTo (fun _ _ => arg) ⟨fun _ => none, fun _ => none⟩ argExp argTy arg := by
    cases arg with
    | none => exact ⟨none, none, trivial⟩
    | some arg => exact ⟨some default, some default, rfl⟩
  obtain ⟨argTy, argExp, hargs⟩ := hargs
  obtain ⟨code, hcode, hvalue⟩ := hcomposes ⟨[name]⟩ argTy default argExp _ _ rfl hargs
  obtain ⟨code', hcode', hvalue'⟩ := hcomposes' ⟨[name]⟩ argTy default argExp _ _ rfl hargs
  obtain rfl : code = code' := Except.ok.inj (hcode.symm.trans hcode')
  exact Option.some.inj (hvalue.symm.trans hvalue')

/-- In `datatype foo = Foo of {} | Bar` both constructors are represented by the
null pointer, and in `datatype t = A of int list` so is `A nil`. -/
theorem emptyRecord_shares_null :
    (let conSet : ConSet Unit := SortedMap.ofList [("Foo", some .tyrecord), ("Bar", none)]
    let values := fun (_ : String) value => ∀ (source : Source Unit) (env : RunEnv),
      eval source (compileRecord [] () : EmitTypedLambda Unit Unit) env = some value
    ∃ property, datatypeLayout conSet = .ok property ∧
      ¬ ∃ rep : String → Option MValue → MValue,
        (∀ name arg, IsValue conSet values name arg →
          Composes Unit Unit property name arg (rep name arg) ∧
            Switches Unit Unit conSet property name arg (rep name arg)) ∧
        ∀ name arg name' arg', IsValue conSet values name arg →
          IsValue conSet values name' arg' → rep name arg = rep name' arg' → name = name') ∧
    (let list : ConSet Unit := SortedMap.ofList [("::", some .tyrecord), ("nil", none)]
    ∃ listProperty, datatypeLayout list = .ok listProperty ∧
      ∃ property, datatypeLayout (SortedMap.ofList
          [("A", some (.tyconstruct (.tfunDty (.dty listProperty))))]) = .ok property ∧
        ∃ nil, Composes Unit Unit listProperty "nil" none nil ∧
          Composes Unit Unit property "A" (some nil) .null) := by
  constructor
  · intro conSet values
    refine ⟨recordProp (.layoutArgOrNull false), by decide, ?_⟩
    rintro ⟨rep, hrep, hinj⟩
    have hitems : conSet.items = [("Bar", none), ("Foo", some .tyrecord)] := rfl
    have hshape : LayoutShape conSet (.layoutArgOrNull false) := by
      refine ⟨"Foo", .tyrecord, "Bar", ?_⟩
      rw [hitems]
      exact ⟨rfl, rfl, by decide⟩
    have hfooCon : ("Foo", some .tyrecord) ∈ conSet.items := by simp [hitems]
    have hbarCon : ("Bar", none) ∈ conSet.items := by simp [hitems]
    have hfoo : IsValue conSet values "Foo" (some .null) := .applied hfooCon fun _ _ => rfl
    have hbar : IsValue conSet values "Bar" none := .nullary hbarCon
    have hfooNull : rep "Foo" (some .null) = .null :=
      composes_unique (hrep _ _ hfoo).1 (composes_applied rfl hshape hfooCon .null)
    have hbarNull : rep "Bar" none = .null :=
      composes_unique (hrep _ _ hbar).1 (composes_nullary rfl hshape hbarCon)
    have hsame := hinj _ _ _ _ hfoo hbar (hfooNull.trans hbarNull.symm)
    exact absurd hsame (by decide)
  · intro list
    refine ⟨recordProp (.layoutArgOrNull false), by decide,
      recordProp (.layoutSingleArg false), by decide, .null, ?_, ?_⟩
    · have hitems : list.items = [("::", some .tyrecord), ("nil", none)] := rfl
      have hshape : LayoutShape list (.layoutArgOrNull false) := by
        refine ⟨"::", .tyrecord, "nil", ?_⟩
        rw [hitems]
        exact ⟨rfl, rfl, by decide⟩
      exact composes_nullary rfl hshape (by simp [hitems])
    · have hshape : LayoutShape (SortedMap.ofList
          [("A", some (.tyconstruct (.tfunDty (.dty (recordProp (.layoutArgOrNull false))))))] :
            ConSet Unit) (.layoutSingleArg false) := ⟨"A", _, rfl⟩
      exact composes_applied rfl hshape List.mem_cons_self .null

end DatatypeCompilation

end SmlSharp
