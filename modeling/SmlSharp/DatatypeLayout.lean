/-
The layout of a datatype, decided from the properties of its constructor
arguments, and the one pair of related properties that decides it differently.
-/
import SmlSharp.RuntimeTypes
import SmlSharp.Lib.SortedMap

namespace SmlSharp

abbrev SymbolEnv (α : Type) := SortedMap String α

namespace IDCalc

open RuntimeTypes

variable {κ : Type}

mutual

/-- The types of the identifier calculus, as far as their runtime property is
concerned. -/
inductive Ty (κ : Type) where
  | tywild
  | tyerror
  | tyvar (lifted : Bool) (id : Nat)
  | tyfreeTyvar
  | tyrecord
  | tyconstruct (tfun : Tfun κ)
  | tyfunm
  | typoly
  | inferredty

/-- Type functions: `TFUN_DEF`, and the contents of a `TFUN_VAR`. -/
inductive Tfun (κ : Type) where
  | tfunDef (realizerTy : Ty κ)
  | tfvSpec
  | tfvDty
  | tfunDty (dtyKind : DtyKind κ)
  | realized (tfun : Tfun κ)
  | instantiated (tfun : Tfun κ)
  | funDty

inductive DtyKind (κ : Type) where
  | funparam (property : RuntimeTypes.Property κ)
  | dty (property : RuntimeTypes.Property κ)
  | dtyInterface (property : RuntimeTypes.Property κ)
  | interfaceKind (tfun : Tfun κ)
  | opaqueKind (tfun : Tfun κ)

end

inductive Property (κ : Type) where
  | prop (property : RuntimeTypes.Property κ)
  | lifted (tvar : Nat)
deriving DecidableEq

mutual

def propertyOfIty : Ty κ → Option (Property κ)
  | .tywild => none
  | .tyerror => none
  | .tyvar lifted id => if lifted then some (.lifted id) else none
  | .tyfreeTyvar => none
  | .tyrecord => some (.prop recordProp)
  | .tyconstruct tfun => tfunProperty tfun
  | .tyfunm => some (.prop recordProp)
  | .typoly => none
  | .inferredty => none

def tfunProperty : Tfun κ → Option (Property κ)
  | .tfunDef realizerTy => propertyOfIty realizerTy
  | .tfvSpec => none
  | .tfvDty => none
  | .tfunDty dtyKind => dtyKindProperty dtyKind
  | .realized tfun => tfunProperty tfun
  | .instantiated tfun => tfunProperty tfun
  | .funDty => none

/-- The branches of `tfunProperty` for the kinds of a `TFUN_DTY`. -/
def dtyKindProperty : DtyKind κ → Option (Property κ)
  | .funparam property => some (.prop property)
  | .dty property => some (.prop property)
  | .dtyInterface property => some (.prop property)
  | .interfaceKind tfun => tfunProperty tfun
  | .opaqueKind tfun => tfunProperty tfun

end

end IDCalc

namespace DatatypeLayout

open RuntimeTypes

variable {κ : Type} [DecidableEq κ]

/-- The constructors of a datatype with their argument types. -/
abbrev ConSet (κ : Type) := SymbolEnv (Option (IDCalc.Ty κ))

def tagProp (layout : Layout) : Property κ :=
  { (contagProp : Property κ) with rep := .data layout }

def recordProp (layout : Layout) : Property κ :=
  { (RuntimeTypes.recordProp : Property κ) with rep := .data layout }

/-- The constructors with an argument and those without, each group in the
order of the names. -/
structure Classified (κ : Type) where
  some : List (String × IDCalc.Ty κ)
  none : List String

def classify (conSet : ConSet κ) : Classified κ :=
  conSet.foldri
    (fun name ty classified =>
      match ty with
      | some ty => { classified with some := (name, ty) :: classified.some }
      | none => { classified with none := name :: classified.none })
    ⟨[], []⟩

def makeTagMap (conSet : ConSet κ) : List String := conSet.listKeys

def propertyOf (ty : IDCalc.Ty κ) : Option (Property κ) :=
  match IDCalc.propertyOfIty ty with
  | some (.prop property) => some property
  | _ => none

/-- Whether the argument of a single constructor needs a wrapper record. -/
def wrapSingleArg (property : Option (Property κ)) : Bool :=
  match property with
  | some ⟨.tag .boxed, _, _⟩ => false
  | _ => true

/-- Whether the argument of the only constructor with an argument needs a
wrapper record to be told from the null pointer. -/
def wrapArgOrNull (property : Option (Property κ)) : Bool :=
  match property with
  | none => true
  | some ⟨.anytag, _, _⟩ => true
  | some ⟨.tag .unboxed, _, _⟩ => true
  | some prop@⟨.tag .boxed, _, _⟩ =>
    !canBeRegardedAs prop RuntimeTypes.recordProp

def datatypeLayout (conSet : ConSet κ) : Except String (Property κ) :=
  match classify conSet with
  | ⟨[], []⟩ => .error "layout: no variant"
  | ⟨[], [_]⟩ => .ok (tagProp .layoutSingle)
  | ⟨[], [name1, _]⟩ => .ok (tagProp (.layoutChoice name1))
  | ⟨[], _ :: _⟩ =>
    .ok (tagProp (.layoutTagged (.taggedTagonly (makeTagMap conSet))))
  | ⟨[(_, ty)], []⟩ =>
    .ok (recordProp (.layoutSingleArg (wrapSingleArg (propertyOf ty))))
  | ⟨[(_, ty)], [_]⟩ =>
    .ok (recordProp (.layoutArgOrNull (wrapArgOrNull (propertyOf ty))))
  | ⟨_, [name]⟩ =>
    .ok (recordProp (.layoutTagged (.taggedOrNull (makeTagMap conSet) name)))
  | ⟨_, _⟩ =>
    .ok (recordProp (.layoutTagged (.taggedRecord (makeTagMap conSet))))

/-- The constructors with an argument, in order. -/
def argCons (items : List (String × Option (IDCalc.Ty κ))) :
    List (String × IDCalc.Ty κ) :=
  items.filterMap fun entry => entry.2.map fun ty => (entry.1, ty)

/-- The constructors without an argument, in order. -/
def nullaryCons (items : List (String × Option (IDCalc.Ty κ))) : List String :=
  items.filterMap fun entry => if entry.2.isNone then some entry.1 else none

omit [DecidableEq κ] in
theorem classify_eq (conSet : ConSet κ) :
    classify conSet = ⟨argCons conSet.items, nullaryCons conSet.items⟩ := by
  obtain ⟨items, hsorted⟩ := conSet
  change List.foldr _ _ items =
    (⟨argCons items, nullaryCons items⟩ : Classified κ)
  clear hsorted
  induction items with
  | nil => rfl
  | cons entry rest ih =>
    obtain ⟨name, ty⟩ := entry
    rw [List.foldr_cons, ih]
    cases ty <;> simp [argCons, nullaryCons]

omit [DecidableEq κ] in
/-- A group of constructors is empty, a single nullary constructor, or neither;
the last excludes the two shapes for which a layout looks at a type. -/
theorem argCons_nullaryCons_eq_nil
    (items : List (String × Option (IDCalc.Ty κ)))
    (hargs : argCons items = []) (hnullary : nullaryCons items = []) :
    items = [] := by
  cases items with
  | nil => rfl
  | cons entry rest =>
    obtain ⟨name, ty⟩ := entry
    cases ty with
    | none => simp [nullaryCons] at hnullary
    | some ty => simp [argCons] at hargs

omit [DecidableEq κ] in
theorem argCons_nullaryCons_eq_singleton
    (items : List (String × Option (IDCalc.Ty κ))) {name : String}
    (hargs : argCons items = []) (hnullary : nullaryCons items = [name]) :
    items = [(name, none)] := by
  cases items with
  | nil => simp [nullaryCons] at hnullary
  | cons entry rest =>
    obtain ⟨head, ty⟩ := entry
    cases ty with
    | some ty => simp [argCons] at hargs
    | none =>
      have hrestArgs : argCons rest = [] := by simpa [argCons] using hargs
      have hhead : head = name ∧ nullaryCons rest = [] := by
        simpa [nullaryCons] using hnullary
      rw [argCons_nullaryCons_eq_nil rest hrestArgs hhead.2, hhead.1]

/-- The datatype has one constructor beside `con`, and that one is nullary. -/
def OneNullaryBeside (conSet : ConSet κ) (con : String) : Prop :=
  ∃ name, (conSet.remove con).items = [(name, none)]

/-- How a layout depends on the type of one constructor's argument. -/
theorem datatypeLayout_insert (conSet : ConSet κ) (con : String) :
    ((conSet.remove con).items = [] ∧ ∀ ty,
      datatypeLayout (conSet.insert con (some ty)) =
        .ok (recordProp (.layoutSingleArg (wrapSingleArg (propertyOf ty))))) ∨
    (OneNullaryBeside conSet con ∧ ∀ ty,
      datatypeLayout (conSet.insert con (some ty)) =
        .ok (recordProp (.layoutArgOrNull (wrapArgOrNull (propertyOf ty))))) ∨
    (¬ OneNullaryBeside conSet con ∧ ∀ left right,
      datatypeLayout (conSet.insert con (some left)) =
        datatypeLayout (conSet.insert con (some right))) := by
  obtain ⟨lower, upper, hremove, hinsert⟩ := conSet.insert_items_split con
  have hclassify : ∀ ty, classify (conSet.insert con (some ty)) =
      ⟨argCons lower ++ (con, ty) :: argCons upper,
        nullaryCons (lower ++ upper)⟩ := by
    intro ty
    rw [classify_eq, hinsert]
    simp [argCons, nullaryCons]
  have hkeys : ∀ left right, makeTagMap (conSet.insert con (some left)) =
      makeTagMap (conSet.insert con (some right)) :=
    fun left right => conSet.insert_listKeys_eq con (some left) (some right)
  by_cases hargs : argCons (lower ++ upper) = []
  · have hlower : argCons lower = [] := by
      have := hargs
      simp only [argCons, List.filterMap_append, List.append_eq_nil_iff] at this
      exact this.1
    have hupper : argCons upper = [] := by
      have := hargs
      simp only [argCons, List.filterMap_append, List.append_eq_nil_iff] at this
      exact this.2
    rcases hnullary : nullaryCons (lower ++ upper) with _ | ⟨name, _ | ⟨other, rest⟩⟩
    · left
      refine ⟨hremove.trans (argCons_nullaryCons_eq_nil _ hargs hnullary), ?_⟩
      intro ty
      simp [datatypeLayout, hclassify, hlower, hupper, hnullary]
    · right; left
      refine ⟨⟨name, hremove.trans
        (argCons_nullaryCons_eq_singleton _ hargs hnullary)⟩, ?_⟩
      intro ty
      simp [datatypeLayout, hclassify, hlower, hupper, hnullary]
    · right; right
      constructor
      · rintro ⟨single, hsingle⟩
        rw [hremove.symm.trans hsingle] at hnullary
        simp [nullaryCons] at hnullary
      · intro left right
        simp [datatypeLayout, hclassify, hlower, hupper, hnullary,
          hkeys left right]
  · right; right
    constructor
    · rintro ⟨single, hsingle⟩
      rw [hremove.symm.trans hsingle] at hargs
      simp [argCons] at hargs
    · intro left right
      have hmany : ∀ ty, ∃ first second rest,
          argCons lower ++ (con, ty) :: argCons upper =
            first :: second :: rest := by
        intro ty
        have hlength : 1 < (argCons lower ++ (con, ty) :: argCons upper).length := by
          have hpos := List.length_pos_iff.mpr hargs
          simp only [argCons, List.filterMap_append, List.length_append,
            List.length_cons] at hpos ⊢
          omega
        rcases hlist : argCons lower ++ (con, ty) :: argCons upper with
          _ | ⟨first, _ | ⟨second, rest⟩⟩
        · simp at hlist
        · rw [hlist] at hlength
          simp at hlength
        · exact ⟨first, second, rest, rfl⟩
      obtain ⟨left1, left2, lefts, hleft⟩ := hmany left
      obtain ⟨right1, right2, rights, hright⟩ := hmany right
      simp only [datatypeLayout, hclassify, hleft, hright, hkeys left right]
      rcases nullaryCons (lower ++ upper) with _ | ⟨name, _ | ⟨other, rest⟩⟩ <;>
        rfl

theorem datatypeLayout_insert_ok (conSet : ConSet κ) (con : String)
    (ty : IDCalc.Ty κ) :
    ∃ property, datatypeLayout (conSet.insert con (some ty)) = .ok property := by
  obtain ⟨lower, upper, _, hinsert⟩ := conSet.insert_items_split con
  have hargs : argCons (conSet.insert con (some ty)).items ≠ [] := by
    rw [hinsert]
    simp [argCons]
  unfold datatypeLayout
  rw [classify_eq]
  split
  · next heq => simp_all
  · next heq => simp_all
  · next heq => simp_all
  · next heq => simp_all
  all_goals exact ⟨_, rfl⟩

/-- A reference, the one datatype that is never null, seen through an interface
that says no more than `boxed`. -/
def RefSeenAsBoxed (actual seen : Property κ) : Prop :=
  actual = recordProp .layoutRef ∧ seen = boxedProp

instance (actual seen : Property κ) : Decidable (RefSeenAsBoxed actual seen) :=
  inferInstanceAs (Decidable (_ ∧ _))

theorem wrapSingleArg_regarded {actual seen : Property κ}
    (hregarded : canBeRegardedAs actual seen = true) :
    wrapSingleArg (some actual) = wrapSingleArg (some seen) := by
  obtain ⟨tag, size, rep⟩ := actual
  obtain ⟨tag', size', rep'⟩ := seen
  obtain ⟨htag, -, -⟩ := (canBeRegardedAs_iff _ _).mp hregarded
  simp only at htag
  subst htag
  rcases tag with (_ | _) | _ <;> rfl

/-- Related properties decide the wrapper of `LAYOUT_ARG_OR_NULL` alike, but
for the reference that is regarded as an arbitrary pointer. -/
theorem wrapArgOrNull_regarded {actual seen : Property κ}
    (hregarded : canBeRegardedAs actual seen = true) :
    wrapArgOrNull (some actual) = wrapArgOrNull (some seen) ↔
      ¬ RefSeenAsBoxed actual seen := by
  obtain ⟨tag, size, rep⟩ := actual
  obtain ⟨tag', size', rep'⟩ := seen
  obtain ⟨htag, hsize, hrep⟩ := (canBeRegardedAs_iff _ _).mp hregarded
  simp only at htag hsize hrep
  subst htag hsize
  rcases tag with (_ | _) | _
  · simp only [wrapArgOrNull]
    rw [Bool.eq_iff_iff, Bool.not_eq_true', Bool.not_eq_true',
      Bool.eq_false_iff, Bool.eq_false_iff, ne_eq, ne_eq,
      canBeRegardedAs_recordProp, canBeRegardedAs_recordProp]
    rcases (repCanBeRegardedAs_boxed rep rep').mp hrep with
      rfl | ⟨rfl, rfl⟩ | ⟨layout, rfl, rfl⟩
    · cases rep <;> simp [RefSeenAsBoxed, recordProp, boxedProp, boxedTy,
        RuntimeTypes.recordProp, recordTy, tyToProp]
    · simp [RefSeenAsBoxed, boxedProp, boxedTy, tyToProp]
    · simp [RefSeenAsBoxed, recordProp, boxedProp, boxedTy,
        RuntimeTypes.recordProp, recordTy, tyToProp]
      tauto
  · simp [wrapArgOrNull, RefSeenAsBoxed, recordProp, RuntimeTypes.recordProp,
      recordTy, tyToProp]
  · simp [wrapArgOrNull, RefSeenAsBoxed, recordProp, RuntimeTypes.recordProp,
      recordTy, tyToProp]

/-- The layouts that two related views of one constructor's argument lead to
agree, except where a reference is seen as `boxed` beside a single nullary
constructor. -/
theorem datatypeLayout_eq_iff (conSet : ConSet κ) (con : String)
    {actual seen : Property κ} {actualTy seenTy : IDCalc.Ty κ}
    (hactual : propertyOf actualTy = some actual)
    (hseen : propertyOf seenTy = some seen)
    (hregarded : canBeRegardedAs actual seen = true) :
    datatypeLayout (conSet.insert con (some actualTy)) =
        datatypeLayout (conSet.insert con (some seenTy)) ↔
      ¬ (RefSeenAsBoxed actual seen ∧ OneNullaryBeside conSet con) := by
  rcases datatypeLayout_insert conSet con with
    ⟨hnone, hlayout⟩ | ⟨hbeside, hlayout⟩ | ⟨hnot, hlayout⟩
  · have hnot : ¬ OneNullaryBeside conSet con := by
      rintro ⟨name, hname⟩
      rw [hnone] at hname
      cases hname
    simp [hlayout, hactual, hseen, wrapSingleArg_regarded hregarded, hnot]
  · have hwrap := wrapArgOrNull_regarded hregarded
    simp [hlayout, hactual, hseen, hbeside, ← hwrap, recordProp]
  · simp [hlayout actualTy seenTy, hnot]

end DatatypeLayout

end SmlSharp
