/-
The interface declarations that a load returns: each interface file once, every
interface after the interfaces it requires.
-/
import SmlSharp.LoadFile.Closed
import Mathlib.Data.List.Induction

namespace SmlSharp

namespace LoadFile

open InterfaceName

variable {T I : Type}

/-! ### Required interfaces are completed -/

/-- Every interface of the store is the declaration of a completed entry. -/
def Resolved {α : Type} (done : Entries T I)
    (requires : Assoc Filename (InterfaceDec I × α)) : Prop :=
  ∀ filename entry, requires.find filename = some entry →
    ∃ result, (filename, result) ∈ done ∧ result.interfaceDec? = some entry.1

theorem resolved_empty {α : Type} (done : Entries T I) :
    Resolved done (.empty : Assoc Filename (InterfaceDec I × α)) := by
  intro filename entry hfind
  cases hfind

variable {done : Entries T I} {fs : FileSystem T I} {loader : Loader} {mode : FileLoadMode}
  {loadPath : List Source} {P : FileLoadMode → Prop}

theorem Resolved.mono {α : Type} {pre : Entries T I}
    {requires : Assoc Filename (InterfaceDec I × α)}
    (hresolved : Resolved pre requires) (hpre : pre <+: done) :
    Resolved done requires := by
  intro filename entry hfind
  obtain ⟨result, hmem, hdec⟩ := hresolved filename entry hfind
  exact ⟨result, hpre.subset hmem, hdec⟩

theorem Resolved.concatWith {α : Type} {done : Entries T I}
    {left right : Assoc Filename (InterfaceDec I × α)}
    (hleft : Resolved done left) (hright : Resolved done right) :
    Resolved done (.concatWith second left right) := by
  intro filename entry hfind
  rw [Assoc.find_concatWith, RawAssoc.unionWith] at hfind
  cases hfirst : left.find filename with
  | none => exact hright filename entry (by simpa [hfirst] using hfind)
  | some first =>
    cases hsecond : right.find filename with
    | none =>
      exact hleft filename entry (by simpa [hfirst, hsecond] using hfind)
    | some found =>
      exact hright filename entry
        (by simpa [hfirst, hsecond, second] using hfind)

/-- The requires of every completed interface file are completed. -/
def AllResolved (done : Entries T I) : Prop :=
  ∀ filename result, (filename, .smi result) ∈ done →
    Resolved done result.requires

theorem lookupRequire_resolved (hall : AllResolved done)
    {filePathLoc : FileOrPath × Loc} {result : SmiResult T I}
    (hlookup : lookupRequire fs done () loader mode filePathLoc =
      .ok ((), result)) : Resolved done result.requires := by
  obtain ⟨-, source, found, -, hfind, rfl⟩ := lookupRequire_ok.mp hlookup
  exact hall source.2 found (mem_of_findDone hfind)

theorem loadRequireList_resolved (hall : AllResolved done)
    {pathLocs : List (FileOrPath × Loc)} {result : IncludesResult T I}
    (heval : loadRequireList (lookupRequire fs done) () loader mode pathLocs =
      .ok ((), result)) : Resolved done result.requires := by
  induction pathLocs generalizing result with
  | nil =>
    cases heval
    exact resolved_empty done
  | cons pathLoc pathLocs ih =>
    simp only [loadRequireList, except_bind_ok, except_pure_ok] at heval
    obtain ⟨⟨⟨⟩, first⟩, hfirst, ⟨⟨⟩, rest⟩, hrest, hresult⟩ := heval
    cases hresult
    exact (lookupRequire_resolved hall hfirst).concatWith (ih hrest)

theorem evalRequireOptions_requires {options : List (String × Loc)}
    {args result : SmiResult T I}
    (heval : evalRequireOptions options args = .ok result) :
    result.requires = args.requires := by
  simp only [evalRequireOptions, except_bind_ok, except_pure_ok] at heval
  obtain ⟨init, -, rfl⟩ := heval
  rfl

theorem evalIrequire_resolved (hall : AllResolved done)
    {irequire : Irequire} {result : RequiresResult T I}
    (heval : evalIrequire (lookupRequire fs done) (lookupUse fs done) () loader
      mode irequire = .ok ((), some result)) :
    Resolved done result.requires ∧ Resolved done result.localRequires := by
  cases irequire with
  | require path options loc =>
    simp only [evalIrequire, except_bind_ok, except_pure_ok] at heval
    obtain ⟨⟨⟨⟩, loaded⟩, hload, evaluated, hoptions, hresult⟩ := heval
    cases hresult
    refine ⟨?_, resolved_empty done⟩
    rw [evalRequireOptions_requires hoptions]
    exact lookupRequire_resolved hall hload
  | localRequire path options loc =>
    simp only [evalIrequire] at heval
    split at heval
    · simp only [except_bind_ok, except_pure_ok] at heval
      obtain ⟨⟨⟨⟩, loaded⟩, hload, evaluated, hoptions, hresult⟩ := heval
      cases hresult
      refine ⟨resolved_empty done, ?_⟩
      rw [evalRequireOptions_requires hoptions]
      exact lookupRequire_resolved hall hload
    · cases heval
  | localUse path loc =>
    simp only [evalIrequire] at heval
    split at heval
    · simp only [except_bind_ok, except_pure_ok] at heval
      obtain ⟨⟨⟨⟩, used⟩, -, hresult⟩ := heval
      cases hresult
      exact ⟨resolved_empty done, resolved_empty done⟩
    · cases heval

theorem evalIrequireList_resolved (hall : AllResolved done)
    {irequires : List Irequire} {result : RequiresResult T I}
    (heval : evalIrequireList (lookupRequire fs done) (lookupUse fs done) ()
      loader mode irequires = .ok ((), result)) :
    Resolved done result.requires ∧ Resolved done result.localRequires := by
  induction irequires generalizing result with
  | nil =>
    cases heval
    exact ⟨resolved_empty done, resolved_empty done⟩
  | cons irequire irequires ih =>
    simp only [evalIrequireList, except_bind_ok] at heval
    obtain ⟨⟨⟨⟩, first⟩, hfirst, ⟨⟨⟩, rest⟩, hrest, hresult⟩ := heval
    obtain ⟨hrequires, hlocal⟩ := ih hrest
    cases first with
    | none =>
      cases hresult
      exact ⟨hrequires, hlocal⟩
    | some first =>
      cases hresult
      obtain ⟨hrequires', hlocal'⟩ := evalIrequire_resolved hall hfirst
      exact ⟨hrequires'.concatWith hrequires, hlocal'.concatWith hlocal⟩

theorem Closed.init {pre post : Entries T I}
    (hclosed : Closed fs loadPath P (pre ++ post)) :
    Closed fs loadPath P pre := by
  intro pre' filename result post' heq
  exact hclosed pre' filename result (post' ++ post) (by simp [heq])

/-- By induction on the order of completion: an interface requires itself
only in its own entry, an include file passes on what it includes. -/
theorem Closed.allResolved (hclosed : Closed fs loadPath P done) : AllResolved done := by
  induction done using List.reverseRecOn with
  | nil =>
    intro filename result hmem
    cases hmem
  | append_singleton pre last ih =>
    have hall := ih hclosed.init
    intro filename result hmem
    rcases List.mem_append.mp hmem with hmem | hmem
    · exact (hall filename result hmem).mono (List.prefix_append _ _)
    · rw [List.mem_singleton] at hmem
      subst hmem
      generalize hresult : EvalResult.smi result = entry at hclosed ⊢
      cases hclosed pre filename entry [] rfl with
      | sml => cases hresult
      | includes loc parse hmode eval =>
        cases hresult
        exact (loadRequireList_resolved hall eval).mono
          (List.prefix_append _ _)
      | @interface source requires provide mode evaluated id loc parse hmode
          eval =>
          cases hresult
          intro filename entry hfind
          simp only [interfaceResult, Assoc.find_singleton] at hfind
          split at hfind
          · next heq =>
              cases hfind
              exact ⟨_, List.mem_append_right _
                (List.mem_singleton.mpr (by rw [heq])), rfl⟩
          · cases hfind

/-! ### The list of declarations -/

theorem mem_interfaceDecsOf {dec : InterfaceDec I} :
    dec ∈ interfaceDecsOf done ↔ ∃ filename result, (filename, result) ∈ done ∧
        result.interfaceDec? = some dec := by
  simp [interfaceDecsOf]

/-- The identifiers of a resolved store belong to declarations of the list. -/
theorem Resolved.ids {requires : Assoc Filename (InterfaceDec I × Loc)}
    (hresolved : Resolved done requires) {idLoc : IdLoc}
    (hid : idLoc ∈ requires.collect decLocToIdLoc) :
    ∃ dec ∈ interfaceDecsOf done, dec.interfaceId = idLoc.id := by
  simp only [Assoc.collect, Assoc.listItems, List.map_map, List.mem_map,
    Function.comp] at hid
  obtain ⟨⟨filename, entry⟩, hentry, rfl⟩ := hid
  rw [Assoc.mem_entries_iff] at hentry
  obtain ⟨result, hmem, hdec⟩ := hresolved filename entry hentry
  exact ⟨entry.1, mem_interfaceDecsOf.mpr ⟨filename, result, hmem, hdec⟩, rfl⟩

/-- What a completed interface entry says of its declaration. -/
theorem EntryOk.interfaceDec {filename : Filename} {result : EvalResult T I}
    (hentry : EntryOk fs loadPath P done filename result)
    {dec : InterfaceDec I} (hdec : result.interfaceDec? = some dec)
    (hall : AllResolved done) : dec.interfaceName.source.2 = filename ∧
      ∀ idLoc ∈ dec.requiredIds,
        ∃ dec' ∈ interfaceDecsOf done, dec'.interfaceId = idLoc.id := by
  cases hentry with
  | sml => cases hdec
  | includes => cases hdec
  | interface id loc parse hmode eval =>
    cases hdec
    refine ⟨rfl, fun idLoc hid => ?_⟩
    exact (evalIrequireList_resolved hall eval).1.ids hid

/-- Each interface file occurs once, under an identifier of its own, and every
interface follows the interfaces it requires. -/
structure DecsOk (decs : List (InterfaceDec I)) : Prop where
  filesOnce : (decs.map fun dec => dec.interfaceName.source.2).Nodup
  idsOnce : (decs.map InterfaceDec.interfaceId).Nodup
  earlier : ∀ pre dec post, decs = pre ++ dec :: post →
    ∀ idLoc ∈ dec.requiredIds, ∃ dec' ∈ pre, dec'.interfaceId = idLoc.id

theorem Closed.decsOk (hclosed : Closed fs loadPath P done)
    (hnodup : (done.map Prod.fst).Nodup)
    (hids : (interfaceIds done).Pairwise (· < ·)) :
    DecsOk (interfaceDecsOf done) := by
  refine ⟨?_, ?_, ?_⟩
  · have hkeys : ((interfaceDecsOf done).map
        fun dec => dec.interfaceName.source.2).Sublist
          (done.map Prod.fst) := by
      have hfile : ∀ entry ∈ done, ∀ dec, entry.2.interfaceDec? = some dec →
          dec.interfaceName.source.2 = entry.1 := by
        rintro ⟨filename, result⟩ hmem dec hdec
        obtain ⟨pre, post, rfl⟩ := List.append_of_mem hmem
        exact ((hclosed pre filename result post rfl).interfaceDec hdec
          hclosed.init.allResolved).1
      clear hclosed hnodup hids
      induction done with
      | nil => simp [interfaceDecsOf]
      | cons entry rest ih =>
        have hrest := ih fun e he => hfile e (List.mem_cons_of_mem entry he)
        cases hdec : entry.2.interfaceDec? with
        | none =>
          simpa [interfaceDecsOf, hdec] using hrest.cons entry.1
        | some dec =>
          have hhead := hfile entry List.mem_cons_self dec hdec
          simpa [interfaceDecsOf, hdec, hhead] using hrest
    exact hkeys.nodup hnodup
  · have heq : (interfaceDecsOf done).map InterfaceDec.interfaceId =
        interfaceIds done := by
      simp [interfaceDecsOf, interfaceIds, List.map_filterMap]
    rw [heq]
    exact hids.imp fun hlt => hlt.ne
  · intro pre dec post hsplit idLoc hid
    obtain ⟨left, right, rfl, rfl, hright⟩ :=
      List.filterMap_eq_append_iff.mp hsplit
    obtain ⟨skipped, entry, rest, rfl, hskipped, hdec, -⟩ :=
      List.filterMap_eq_cons_iff.mp hright
    have hpre : interfaceDecsOf (left ++ skipped) =
        List.filterMap (fun entry => entry.2.interfaceDec?) left := by
      have hnone : List.filterMap (fun entry => entry.2.interfaceDec?) skipped =
          ([] : List (InterfaceDec I)) :=
        List.filterMap_eq_nil_iff.mpr hskipped
      simp [interfaceDecsOf, hnone]
    have hentry := hclosed (left ++ skipped) entry.1 entry.2 rest (by simp)
    have hwhole : Closed fs loadPath P ((left ++ skipped) ++ entry :: rest) := by
      simpa using hclosed
    have hinit : Closed fs loadPath P (left ++ skipped) := hwhole.init
    rw [← hpre]
    exact (hentry.interfaceDec hdec hinit.allResolved).2 idLoc hid

end LoadFile

end SmlSharp
