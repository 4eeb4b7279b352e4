/-
`OS.IO.poll`: the poll descriptors of the basis library and the runtime's
`prim_GenericOS_poll` above select(2).
-/
import Mathlib.Data.UInt
import SmlSharp.Lib.Except

namespace SmlSharp

namespace Poll

inductive Event where
  | pollin
  | pollout
  | pollpri
deriving DecidableEq

/-- `SML_POLLIN`, `SML_POLLOUT` and `SML_POLLPRI`. -/
def Event.mask : Event → UInt32
  | .pollin => 1
  | .pollout => 2
  | .pollpri => 4

/-- A file descriptor with its events. -/
abbrev PollDesc := Int32 × UInt32

abbrev PollInfo := PollDesc

def pollDesc (fd : Int32) : PollDesc := (fd, 0)

def pollEvent (event : Event) (desc : PollDesc) : PollDesc :=
  (desc.1, desc.2 ||| event.mask)

def pollIn : PollDesc → PollDesc := pollEvent .pollin

def pollOut : PollDesc → PollDesc := pollEvent .pollout

def pollPri : PollDesc → PollDesc := pollEvent .pollpri

/-- The word is masked with the complement of the event's bit. -/
def isEvent (event : Event) (info : PollInfo) : Bool :=
  info.2 &&& ~~~event.mask != 0

def isIn : PollInfo → Bool := isEvent .pollin

def isOut : PollInfo → Bool := isEvent .pollout

def isPri : PollInfo → Bool := isEvent .pollpri

inductive Stop where
  | size
  | negativeTimeout
  | overflow
  | osSysErr
  /-- An access outside an array or a descriptor set. -/
  | undefined
deriving DecidableEq

/-- `infds`, `outfds` and `prifds`. -/
abbrev FdSets := Event → Int32 → Bool

/-- select(2): the number of descriptors, the sets and the timeout go in, the
result and the sets come out. -/
abbrev Select := Int → FdSets → Option (Int × Int) → Int × FdSets

section Runtime

-- `FD_SETSIZE`.
variable (setSize : Nat)

def fdSet (event : Event) (fd : Int32) (sets : FdSets) : Except Stop FdSets :=
  if 0 ≤ fd.toInt ∧ fd.toInt < setSize then
    .ok fun event' fd' => (event' == event && fd' == fd) || sets event' fd'
  else
    .error .undefined

def fdIsset (event : Event) (fd : Int32) (sets : FdSets) : Except Stop Bool :=
  if 0 ≤ fd.toInt ∧ fd.toInt < setSize then .ok (sets event fd)
  else .error .undefined

/-- One of the three tests on the events of a descriptor. -/
def setEvent (event : Event) (fd : Int32) (ev : UInt32) :
    Int × FdSets → Except Stop (Int × FdSets)
  | (setfd, sets) =>
    if ev &&& event.mask ≠ 0 then do
      let sets ← fdSet setSize event fd sets
      return (fd.toInt, sets)
    else
      return (setfd, sets)

def setLoop : List PollDesc → Int → FdSets → Except Stop (Int × FdSets)
  | [], nfds, sets => return (nfds, sets)
  | (fd, ev) :: rest, nfds, sets => do
      let inSet ← setEvent setSize .pollin fd ev (0, sets)
      let outSet ← setEvent setSize .pollout fd ev inSet
      let (setfd, sets) ← setEvent setSize .pollpri fd ev outSet
      setLoop rest (if nfds > setfd then nfds else setfd) sets

/-- The event is reported when the descriptor is *not* in its set. -/
def answerEvent (event : Event) (fd : Int32) (sets : FdSets) (ev : UInt32) :
    Except Stop UInt32 := do
  let isset ← fdIsset setSize event fd sets
  return if !isset then ev ||| event.mask else ev

def answerLoop (sets : FdSets) : List Int32 → Except Stop (List UInt32)
  | [] => return []
  | fd :: rest => do
      let ev ← answerEvent setSize .pollin fd sets 0
      let ev ← answerEvent setSize .pollout fd sets ev
      let ev ← answerEvent setSize .pollpri fd sets ev
      let evs ← answerLoop sets rest
      return ev :: evs

/-- The result and the events left in `evary`, when select succeeds. -/
def primPoll (select : Select) (fdary : List Int32) (evary : List UInt32)
    (sec usec : Int) : Except Stop (Int × List UInt32) := do
  let (nfds, sets) ← setLoop setSize (fdary.zip evary) 0 (fun _ _ => false)
  let timeout := if sec < 0 ∨ usec < 0 then none else some (sec, usec)
  let (err, sets) := select (nfds + 1) sets timeout
  if err < 0 then
    return (err, evary)
  else do
    let evary ← answerLoop setSize sets fdary
    return (err, evary)

end Runtime

/-- The length of the list, counted in `int`. -/
def length : List PollDesc → Int32 → Int32
  | [], z => z
  | _ :: rest, z => length rest (z + 1)

/-- The size check of `Array.alloc`, for elements of four bytes. -/
def allocChecked (len : Int32) : Except Stop Nat :=
  if 0 ≤ len.toInt ∧ len.toInt ≤ 0x0fffffff / 4 then .ok len.toInt.toNat
  else .error .size

/-- The loop `write`, which stores without checking the index. -/
def write : Nat → List PollDesc → List Int32 × List UInt32 →
    Except Stop (List Int32 × List UInt32)
  | _, [], arys => return arys
  | i, (fd, ev) :: rest, (fdary, evary) =>
    if i < fdary.length ∧ i < evary.length then
      write (i + 1) rest (fdary.set i fd, evary.set i ev)
    else
      throw .undefined

def toInt (n : Int) : Except Stop Int :=
  if -2 ^ 31 ≤ n ∧ n < 2 ^ 31 then return n else throw .overflow

/-- The timeout in microseconds as seconds and microseconds. -/
def splitTimeout : Option Int → Except Stop (Int × Int)
  | none => return (-1, -1)
  | some t =>
    if t < 0 then throw .negativeTimeout
    else do
      let sec ← toInt (t / 1000000)
      let usec ← toInt (t % 1000000)
      return (sec, usec)

/-- What `poll` returns, with the indices its last loop reads. -/
structure Polled where
  infos : List PollInfo
  reads : List Nat

section Unzip

variable (beyond : Nat → PollInfo) (fdary : List Int32) (evary : List UInt32)

/-- `Array.sub_unsafe` on both arrays; `beyond` is what the memory behind them
holds. -/
def subUnsafe (i : Nat) : PollInfo :=
  (fdary.getD i (beyond i).1, evary.getD i (beyond i).2)

/-- The loop `unzip`, called with one less than the first argument. -/
def unzip : Nat → Polled → Polled
  | 0, z => z
  | i + 1, z =>
    unzip i
      { infos := subUnsafe beyond fdary evary i :: z.infos
        reads := i :: z.reads }

end Unzip

def poll (setSize : Nat) (select : Select) (beyond : Nat → PollInfo)
    (descs : List PollDesc) (timeout : Option Int) : Except Stop Polled := do
  let len ← allocChecked (length descs 0)
  let (fdary, evary) ←
    write 0 descs (List.replicate len 0, List.replicate len 0)
  let (sec, usec) ← splitTimeout timeout
  let (err, evary) ← primPoll setSize select fdary evary sec usec
  if err < 0 then throw .osSysErr
  else return unzip beyond fdary evary (len + 1) ⟨[], []⟩

/-! ### What was asked for, and what is ready -/

def requested (event : Event) (desc : PollDesc) : Prop :=
  desc.2 &&& event.mask ≠ 0

instance (event : Event) (desc : PollDesc) : Decidable (requested event desc) :=
  inferInstanceAs (Decidable (desc.2 &&& event.mask ≠ 0))

/-- Which events are ready, on each file descriptor. -/
abbrev Readiness := Event → Int32 → Bool

/-- select(2) leaves in the sets what is ready, among the first `nfds`
descriptors, which are all it looks at. -/
def selectReady (ready : Readiness) (count : Nat) : Select :=
  fun nfds sets _ =>
    (count, fun event fd =>
      if fd.toInt < nfds then sets event fd && ready event fd
      else sets event fd)

def wanted (ready : Readiness) (desc : PollDesc) (event : Event) : Prop :=
  requested event desc ∧ ready event desc.1 = true

instance (ready : Readiness) (desc : PollDesc) (event : Event) :
    Decidable (wanted ready desc event) :=
  inferInstanceAs (Decidable (_ ∧ _))

/-- Some event of the descriptor is requested and ready. -/
def reportable (ready : Readiness) (desc : PollDesc) : Bool :=
  [Event.pollin, .pollout, .pollpri].any fun event => wanted ready desc event

/-- An info for each reportable descriptor, in list order, that has exactly the
requested events that are ready. -/
def ExactInfos (ready : Readiness) (descs infos : List PollDesc) : Prop :=
  List.Forall₂
    (fun desc info =>
      info.1 = desc.1 ∧
        ∀ event, isEvent event info = true ↔ wanted ready desc event)
    (descs.filter (reportable ready)) infos

/-- What `poll` is for: it returns the exact infos, and reads no element behind
the arrays. -/
def PollExact (ready : Readiness) (descs : List PollDesc)
    (result : Except Stop Polled) : Prop :=
  ∃ out, result = .ok out ∧ ExactInfos ready descs out.infos ∧
    ∀ i ∈ out.reads, i < descs.length

/-! ### The loops of the runtime -/

section Runtime

variable {setSize : Nat}

theorem setEvent_ok {event : Event} {fd : Int32} {ev : UInt32}
    {acc acc' : Int × FdSets} (h : setEvent setSize event fd ev acc = .ok acc') :
    acc'.1 = (if requested event (fd, ev) then fd.toInt else acc.1) ∧
      ∀ e x, acc'.2 e x = true ↔
        (e = event ∧ fd = x ∧ requested event (fd, ev)) ∨ acc.2 e x = true := by
  obtain ⟨setfd, sets⟩ := acc
  dsimp only [setEvent] at h
  by_cases hreq : ev &&& event.mask ≠ 0
  · rw [if_pos hreq] at h
    obtain ⟨sets, hset, hret⟩ := except_bind_ok.mp h
    cases hret
    unfold fdSet at hset
    split at hset
    · cases hset
      simp [requested, hreq, eq_comm (b := fd)]
    · cases hset
  · rw [if_neg hreq] at h
    cases h
    simp [requested, hreq]

/-- The sets hold what the descriptors request, and `nfds` reaches it. -/
theorem setLoop_ok {descs : List PollDesc} {nfds nfds' : Int}
    {sets sets' : FdSets}
    (h : setLoop setSize descs nfds sets = .ok (nfds', sets')) : nfds ≤ nfds' ∧
      (∀ desc ∈ descs, ∀ e, requested e desc → desc.1.toInt ≤ nfds') ∧
      ∀ e x, sets' e x = true ↔
        (∃ desc ∈ descs, desc.1 = x ∧ requested e desc) ∨ sets e x = true := by
  induction descs generalizing nfds sets with
  | nil =>
    cases h
    simp
  | cons desc rest ih =>
    obtain ⟨fd, ev⟩ := desc
    obtain ⟨inSet, hin, h⟩ := except_bind_ok.mp h
    obtain ⟨outSet, hout, h⟩ := except_bind_ok.mp h
    obtain ⟨⟨setfd, priSets⟩, hpri, h⟩ := except_bind_ok.mp h
    have ⟨hinFd, hinSets⟩ := setEvent_ok hin
    have ⟨houtFd, houtSets⟩ := setEvent_ok hout
    have ⟨hpriFd, hpriSets⟩ := setEvent_ok hpri
    have ⟨hle, hreach, hsets⟩ := ih h
    have hfd : ∀ e, requested e (fd, ev) → setfd = fd.toInt := by
      intro e hreq
      have hpriFd : setfd = _ := hpriFd
      rw [hpriFd, houtFd, hinFd]
      cases e <;> simp [hreq]
    refine ⟨?_, ?_, ?_⟩
    · split at hle <;> omega
    · intro desc hmem e hreq
      rcases List.mem_cons.mp hmem with heq | hmem
      · subst heq
        have hset : setfd = fd.toInt := hfd e hreq
        show fd.toInt ≤ nfds'
        split at hle <;> omega
      · exact hreach desc hmem e hreq
    · intro e x
      have hfirst : priSets e x = true ↔
          (fd = x ∧ requested e (fd, ev)) ∨ sets e x = true := by
        have hpriSets := hpriSets e x
        rw [hpriSets, houtSets, hinSets]
        cases e <;> simp
      rw [hsets, hfirst, List.exists_mem_cons_iff]
      exact or_left_comm.trans or_assoc.symm

/-- The word left for a descriptor. -/
def answer (sets : FdSets) (fd : Int32) : UInt32 :=
  let ev := if !sets .pollin fd then 0 ||| Event.pollin.mask else 0
  let ev := if !sets .pollout fd then ev ||| Event.pollout.mask else ev
  if !sets .pollpri fd then ev ||| Event.pollpri.mask else ev

theorem answerEvent_ok {event : Event} {fd : Int32} {sets : FdSets}
    {ev ev' : UInt32} (h : answerEvent setSize event fd sets ev = .ok ev') :
    ev' = if !sets event fd then ev ||| event.mask else ev := by
  obtain ⟨isset, hisset, hret⟩ := except_bind_ok.mp h
  unfold fdIsset at hisset
  split at hisset
  · cases hisset
    cases hret
    rfl
  · cases hisset

theorem answerLoop_ok {sets : FdSets} {fds : List Int32} {evs : List UInt32}
    (h : answerLoop setSize sets fds = .ok evs) : evs = fds.map (answer sets) := by
  induction fds generalizing evs with
  | nil =>
    cases h
    rfl
  | cons fd rest ih =>
    obtain ⟨inEv, hin, h⟩ := except_bind_ok.mp h
    obtain ⟨outEv, hout, h⟩ := except_bind_ok.mp h
    obtain ⟨priEv, hpri, h⟩ := except_bind_ok.mp h
    obtain ⟨restEvs, hrest, hret⟩ := except_bind_ok.mp h
    cases hret
    rw [answerEvent_ok hpri, answerEvent_ok hout, answerEvent_ok hin, ih hrest]
    rfl

/-- `isIn`, `isOut` and `isPri` of an answer: some other event's set lacks the
descriptor. -/
theorem isEvent_answer (event : Event) (sets : FdSets) (fd : Int32) :
    isEvent event (fd, answer sets fd) = true ↔
      ∃ other, other ≠ event ∧ sets other fd = false := by
  have hother : (∃ other, other ≠ event ∧ sets other fd = false) ↔
      (Event.pollin ≠ event ∧ sets .pollin fd = false) ∨
        (Event.pollout ≠ event ∧ sets .pollout fd = false) ∨
        (Event.pollpri ≠ event ∧ sets .pollpri fd = false) := by
    constructor
    · rintro ⟨other, h⟩
      cases other <;> simp [h]
    · rintro (h | h | h)
      · exact ⟨_, h⟩
      · exact ⟨_, h⟩
      · exact ⟨_, h⟩
  rw [hother]
  clear hother
  unfold isEvent answer
  generalize sets .pollin fd = inBit
  generalize sets .pollout fd = outBit
  generalize sets .pollpri fd = priBit
  dsimp only
  cases event <;> revert inBit outBit priBit <;> decide

theorem primPoll_ok {select : Select} {fdary : List Int32}
    {evary evary' : List UInt32} {sec usec err : Int}
    (h : primPoll setSize select fdary evary sec usec = .ok (err, evary'))
    (herr : 0 ≤ err) : ∃ nfds sets timeout,
      setLoop setSize (fdary.zip evary) 0 (fun _ _ => false) = .ok (nfds, sets) ∧
      evary' = fdary.map (answer (select (nfds + 1) sets timeout).2) := by
  obtain ⟨⟨nfds, sets⟩, hset, h⟩ := except_bind_ok.mp h
  refine ⟨nfds, sets, if sec < 0 ∨ usec < 0 then none else some (sec, usec),
    hset, ?_⟩
  dsimp only at h
  generalize (if sec < 0 ∨ usec < 0 then none else some (sec, usec)) = timeout
    at h ⊢
  by_cases hneg : (select (nfds + 1) sets timeout).1 < 0
  · rw [if_pos hneg] at h
    cases h
    omega
  · rw [if_neg hneg] at h
    obtain ⟨evs, hevs, hret⟩ := except_bind_ok.mp h
    cases hret
    exact answerLoop_ok hevs

end Runtime

/-! ### The arrays of the basis library -/

theorem toInt_length (descs : List PollDesc) (z : Int32) :
    (length descs z).toInt = (z.toInt + descs.length).bmod (2 ^ 32) := by
  induction descs generalizing z with
  | nil =>
    have h := z.toInt_lt
    have h' := z.le_toInt
    simp only [length, List.length_nil, Nat.cast_zero, add_zero]
    rw [Int.bmod_eq_of_le] <;> omega
  | cons desc rest ih =>
    rw [length, ih, Int32.toInt_add, List.length_cons]
    rw [Int.bmod_add_bmod]
    congr 1
    change z.toInt + 1 + (rest.length : Int) = z.toInt + ((rest.length + 1 : Nat) : Int)
    omega

theorem write_ok {i : Nat} {descs : List PollDesc}
    {arys arys' : List Int32 × List UInt32} (h : write i descs arys = .ok arys') :
    (descs = [] ∨ i + descs.length ≤ arys.1.length) ∧
      arys'.1.length = arys.1.length ∧ arys'.2.length = arys.2.length ∧
      ∀ j, (j < i → arys'.1[j]? = arys.1[j]? ∧ arys'.2[j]? = arys.2[j]?) ∧
        ∀ desc, descs[j]? = some desc →
          arys'.1[i + j]? = some desc.1 ∧ arys'.2[i + j]? = some desc.2 := by
  induction descs generalizing i arys with
  | nil =>
    cases h
    simp
  | cons desc rest ih =>
    obtain ⟨fd, ev⟩ := desc
    obtain ⟨fdary, evary⟩ := arys
    unfold write at h
    split at h
    · next hin =>
      have ⟨hlen, hfd, hev, hget⟩ := ih h
      simp only [List.length_set] at hlen hfd hev
      refine ⟨.inr ?_, hfd, hev, fun j => ⟨fun hj => ?_, fun desc hdesc => ?_⟩⟩
      · rcases hlen with hnil | hlen
        · simp only [hnil, List.length_cons, List.length_nil]
          omega
        · simp only [List.length_cons]
          omega
      · have ⟨hfst, hsnd⟩ := (hget j).1 (by omega)
        simp only [hfst, hsnd]
        rw [List.getElem?_set_ne (by omega), List.getElem?_set_ne (by omega)]
        exact ⟨rfl, rfl⟩
      · cases j with
        | zero =>
          cases hdesc
          have ⟨hfst, hsnd⟩ := (hget i).1 (by omega)
          simp only [Nat.add_zero, hfst, hsnd]
          simp [hin.1, hin.2]
        | succ j =>
          have hstep := (hget j).2 desc hdesc
          rwa [Nat.add_right_comm] at hstep
    · cases h

/-- The arrays are as long as the list, and hold it. -/
theorem write_alloc {descs : List PollDesc} {len : Nat}
    {fdary : List Int32} {evary : List UInt32}
    (halloc : allocChecked (length descs 0) = .ok len)
    (hwrite : write 0 descs (List.replicate len 0, List.replicate len 0) =
      .ok (fdary, evary)) : len = descs.length ∧ fdary = descs.map Prod.fst ∧
      evary = descs.map Prod.snd := by
  have ⟨hlen, hfd, hev, hget⟩ := write_ok hwrite
  simp only [List.length_replicate] at hlen hfd hev
  have hdescs : len = descs.length := by
    unfold allocChecked at halloc
    split at halloc
    · next hrange =>
      cases halloc
      have htoInt := toInt_length descs 0
      simp only [Int32.toInt_zero, zero_add] at htoInt
      rcases hlen with hnil | hlen
      · simp [hnil, length]
      · rw [Int.bmod_eq_of_le (by omega) (by omega)] at htoInt
        omega
    · cases halloc
  refine ⟨hdescs, List.ext_getElem? fun j => ?_, List.ext_getElem? fun j => ?_⟩
  · rw [List.getElem?_map]
    cases hdesc : descs[j]? with
    | none =>
      have hle := List.getElem?_eq_none_iff.mp hdesc
      exact List.getElem?_eq_none (by omega)
    | some desc =>
      have hj := ((hget j).2 desc hdesc).1
      rwa [Nat.zero_add] at hj
  · rw [List.getElem?_map]
    cases hdesc : descs[j]? with
    | none =>
      have hle := List.getElem?_eq_none_iff.mp hdesc
      exact List.getElem?_eq_none (by omega)
    | some desc =>
      have hj := ((hget j).2 desc hdesc).2
      rwa [Nat.zero_add] at hj

theorem unzip_eq (beyond : Nat → PollInfo) (fdary : List Int32)
    (evary : List UInt32) (n : Nat) (z : Polled) :
    unzip beyond fdary evary n z =
      ⟨(List.range n).map (subUnsafe beyond fdary evary) ++ z.infos,
        List.range n ++ z.reads⟩ := by
  induction n generalizing z with
  | zero => rfl
  | succ i ih => rw [unzip, ih, List.range_succ]; simp

/-- Reading one element too many. -/
theorem map_subUnsafe (beyond : Nat → PollInfo) (descs : List PollDesc)
    (f : Int32 → UInt32) : (List.range (descs.length + 1)).map
        (subUnsafe beyond (descs.map Prod.fst) ((descs.map Prod.fst).map f)) =
      descs.map (fun desc => (desc.1, f desc.1)) ++ [beyond descs.length] := by
  rw [List.range_succ, List.map_append]
  congr 1
  · refine List.ext_getElem (by simp) fun i hi _ => ?_
    simp only [List.length_map, List.length_range] at hi
    simp [subUnsafe, hi]
  · simp [subUnsafe]

/-! ### The whole of `poll` -/

section Poll

variable {setSize : Nat} {select : Select} {beyond : Nat → PollInfo}
variable {descs : List PollDesc} {timeout : Option Int} {out : Polled}

/-- What a call returns: an info for every descriptor of the list and one more,
from behind the arrays. -/
theorem poll_ok (h : poll setSize select beyond descs timeout = .ok out) :
    ∃ nfds sets timeout',
      setLoop setSize descs 0 (fun _ _ => false) = .ok (nfds, sets) ∧
      out.infos = descs.map (fun desc =>
          (desc.1, answer (select (nfds + 1) sets timeout').2 desc.1)) ++
          [beyond descs.length] ∧
      out.reads = List.range (descs.length + 1) := by
  obtain ⟨len, halloc, h⟩ := except_bind_ok.mp h
  obtain ⟨⟨fdary, evary⟩, hwrite, h⟩ := except_bind_ok.mp h
  obtain ⟨⟨sec, usec⟩, -, h⟩ := except_bind_ok.mp h
  obtain ⟨⟨err, answers⟩, hprim, hret⟩ := except_bind_ok.mp h
  obtain ⟨rfl, rfl, rfl⟩ := write_alloc halloc hwrite
  dsimp only at hret
  split at hret
  · cases hret
  · next herr =>
    cases hret
    obtain ⟨nfds, sets, timeout', hset, rfl⟩ := primPoll_ok hprim (by omega)
    refine ⟨nfds, sets, timeout', ?_, ?_, ?_⟩
    · rwa [← List.unzip_fst, ← List.unzip_snd, List.zip_unzip] at hset
    · rw [unzip_eq, map_subUnsafe]
      exact List.append_nil _
    · rw [unzip_eq]
      exact List.append_nil _

/-- Above select as the interface describes it, the set of an event keeps the
descriptors that some element requests and that are ready. -/
theorem setLoop_selectReady {ready : Readiness} {count : Nat} {nfds : Int}
    {sets : FdSets} {timeout' : Option (Int × Int)}
    (h : setLoop setSize descs 0 (fun _ _ => false) = .ok (nfds, sets))
    (event : Event) (fd : Int32) :
    (selectReady ready count (nfds + 1) sets timeout').2 event fd = true ↔
      (∃ desc ∈ descs, desc.1 = fd ∧ requested event desc) ∧
        ready event fd = true := by
  have ⟨_, hreach, hsets⟩ := setLoop_ok h
  have hmem := hsets event fd
  simp only [Bool.false_eq_true, or_false] at hmem
  rw [← hmem]
  dsimp only [selectReady]
  split
  · rw [Bool.and_eq_true]
  · next hnot =>
    have hout : sets event fd ≠ true := by
      intro hin
      obtain ⟨desc, hdesc, rfl, hreq⟩ := hmem.mp hin
      have hle := hreach desc hdesc event hreq
      omega
    simp [hout]

/-- The events of the infos are those of the complement: an info reports an
event when another one is not both requested and ready. -/
theorem poll_events {ready : Readiness} {count : Nat}
    (h : poll setSize (selectReady ready count) beyond descs timeout = .ok out) :
    ∃ word : Int32 → UInt32, out.infos =
        descs.map (fun desc => (desc.1, word desc.1)) ++ [beyond descs.length] ∧
      ∀ event fd, isEvent event (fd, word fd) = true ↔ ∃ other, other ≠ event ∧
          ¬ ((∃ desc ∈ descs, desc.1 = fd ∧ requested other desc) ∧
            ready other fd = true) := by
  obtain ⟨nfds, sets, timeout', hset, hinfos, -⟩ := poll_ok h
  refine ⟨_, hinfos, fun event fd => ?_⟩
  rw [isEvent_answer]
  refine exists_congr fun other => and_congr_right fun _ => ?_
  rw [← setLoop_selectReady hset, Bool.not_eq_true]

/-- Standard input and standard output asked for, and both ready. -/
theorem poll_events_stdio : ∃ word : Int32 → UInt32,
      [((0 : Int32), (6 : UInt32)), (1, 5), (7, 0)] =
        [pollIn (pollDesc 0), pollOut (pollDesc 1)].map (fun desc => (desc.1, word desc.1)) ++
          [(7, 0)] ∧
      ∀ event fd, isEvent event (fd, word fd) = true ↔ ∃ other, other ≠ event ∧
          ¬ ((∃ desc ∈ [pollIn (pollDesc 0), pollOut (pollDesc 1)], desc.1 = fd ∧
              requested other desc) ∧ (other != .pollpri) = true) := by
  have hpoll : poll 1024 (selectReady (fun event _ => event != .pollpri) 2)
      (fun _ => (7, 0)) [pollIn (pollDesc 0), pollOut (pollDesc 1)] none =
      .ok ⟨[(0, 6), (1, 5), (7, 0)], [0, 1, 2]⟩ := by
    rfl
  exact poll_events hpoll

/-- `poll` never does what it is for: there is an info too many, and it comes
from behind the arrays. -/
theorem poll_never_exact (setSize : Nat) (ready : Readiness) (count : Nat)
    (beyond : Nat → PollInfo) (descs : List PollDesc) (timeout : Option Int) :
    ¬ PollExact ready descs
        (poll setSize (selectReady ready count) beyond descs timeout) := by
  rintro ⟨out, hout, -, hreads⟩
  obtain ⟨nfds, sets, timeout', -, -, hrange⟩ := poll_ok hout
  rw [hrange] at hreads
  have hlast := hreads descs.length (List.mem_range.mpr (Nat.lt_succ_self _))
  exact Nat.lt_irrefl _ hlast

/-- Standard input asked for, and ready: the info has the other two events, and
a second info is read from behind the arrays. -/
theorem poll_stdin_ready :
    ¬ PollExact (fun event _ => event == .pollin) [pollIn (pollDesc 0)]
        (poll 1024 (selectReady (fun event _ => event == .pollin) 1)
          (fun _ => (7, 0)) [pollIn (pollDesc 0)] none) := by
  have hpoll : poll 1024 (selectReady (fun event _ => event == .pollin) 1)
      (fun _ => (7, 0)) [pollIn (pollDesc 0)] none =
      .ok ⟨[(0, 6), (7, 0)], [0, 1]⟩ := by
    rfl
  rintro ⟨out, hout, hexact, -⟩
  rw [hpoll] at hout
  cases hout
  have hlen := hexact.length_eq
  revert hlen
  decide

end Poll

end Poll

end SmlSharp
