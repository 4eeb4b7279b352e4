/-
`String.scan` against the sequences of items.
-/
import SmlSharp.ScanChar.C

namespace SmlSharp

namespace ScanChar

variable {σ β : Type} {getc : Reader UInt8 σ} {s t u : σ} {fuel n : Nat} {cs : List UInt8}

/-! The loop. -/

theorem scanRepeat0_succ (scan : σ → Except Stop (Option (β × σ))) (n : Nat) (z : List β)
    (s : σ) : scanRepeat0 scan (n + 1) z s = (do
      match ← scan s with
      | none => return (z.reverse, s)
      | some (c, s) => scanRepeat0 scan n (c :: z) s) :=
  rfl

theorem scanRepeat0_acc (scan : σ → Except Stop (Option (β × σ))) (n : Nat) (z : List β)
    (s : σ) : scanRepeat0 scan n z s =
      (scanRepeat0 scan n [] s).map fun p => (z.reverse ++ p.1, p.2) := by
  induction n generalizing z s with
  | zero => rfl
  | succ n ih =>
    rw [scanRepeat0_succ, scanRepeat0_succ]
    rcases scan s with e | (_ | ⟨c, t⟩)
    · rfl
    · simp [Except.map, bind, Except.bind, pure, Except.pure]
    · change scanRepeat0 scan n (c :: z) t =
        (scanRepeat0 scan n [c] t).map fun p => (z.reverse ++ p.1, p.2)
      rw [ih (c :: z), ih [c]]
      rcases scanRepeat0 scan n [] t with e | p
      · rfl
      · simp [Except.map]

/-- `scanRepeat1` is the loop, but it gives nothing for no item. -/
def nonempty (p : List β × σ) : Option (List β × σ) :=
  match p.1 with
  | [] => none
  | _ :: _ => some p

theorem scanRepeat1_eq (scan : σ → Except Stop (Option (β × σ))) (fuel : Nat) (s : σ) :
    scanRepeat1 scan fuel s = (scanRepeat0 scan (fuel + 1) [] s).map nonempty := by
  rw [scanRepeat1, scanRepeat0_succ]
  rcases scan s with e | (_ | ⟨c, t⟩)
  · rfl
  · rfl
  · change (do
        let p ← scanRepeat0 scan fuel [] t
        return some (c :: p.1, p.2)) = (scanRepeat0 scan fuel [c] t).map nonempty
    rw [scanRepeat0_acc scan fuel [c]]
    rcases scanRepeat0 scan fuel [] t with e | p
    · rfl
    · rfl

theorem scanRepeat0_stop {scan : σ → Except Stop (Option (β × σ))} (h : scan s = .ok none)
    (n : Nat) : scanRepeat0 scan (n + 1) [] s = .ok ([], s) := by
  rw [scanRepeat0_succ, h]
  rfl

theorem scanRepeat0_item {scan : σ → Except Stop (Option (β × σ))} {c : β}
    (h : scan s = .ok (some (c, t))) (n : Nat) : scanRepeat0 scan (n + 1) [] s =
      (scanRepeat0 scan n [] t).map fun p => (c :: p.1, p.2) := by
  rw [scanRepeat0_succ, h]
  exact scanRepeat0_acc scan n [c] t

/-- What a scanner finds from a position on, one character after the other, when it has
enough fuel. -/
inductive Decodes (scan : Nat → σ → Except Stop (Option (β × σ))) :
    σ → List β → σ → Prop where
  | nil {s : σ} {k : Nat} (hstop : ∀ fuel, k ≤ fuel → scan fuel s = .ok none) :
      Decodes scan s [] s
  | cons {s t u : σ} {k : Nat} {c : β} {cs : List β}
      (head : ∀ fuel, k ≤ fuel → scan fuel s = .ok (some (c, t))) (tail : Decodes scan t cs u) :
      Decodes scan s (c :: cs) u

theorem Decodes.run {scan : Nat → σ → Except Stop (Option (β × σ))} {cs : List β}
    (h : Decodes scan s cs u) : ∃ k, ∀ fuel n, k ≤ fuel → cs.length < n →
      scanRepeat0 (scan fuel) n [] s = .ok (cs, u) := by
  induction h with
  | @nil s k hstop =>
    refine ⟨k, fun fuel n hfuel hn => ?_⟩
    obtain ⟨n, rfl⟩ := Nat.exists_eq_add_of_le' (show 1 ≤ n from hn)
    exact scanRepeat0_stop (hstop fuel hfuel) n
  | @cons s t u k c cs head tail ih =>
    obtain ⟨k', hk'⟩ := ih
    refine ⟨max k k', fun fuel n hfuel hn => ?_⟩
    rw [List.length_cons] at hn
    obtain ⟨n, rfl⟩ := Nat.exists_eq_add_of_le' (show 1 ≤ n by omega)
    rw [scanRepeat0_item (head fuel (by omega)), hk' fuel n (by omega) (by omega)]
    rfl

/-! Items. -/

theorem SmlItem.value_unique (w : List UInt8) (v v' : Option UInt8) (h : SmlItem w v)
    (h' : SmlItem w v') : v = v' := by
  obtain ⟨g, e, hg, he, rfl⟩ := h
  obtain ⟨g', e', hg', he', heq⟩ := h'
  have heq' : g ++ (e ++ []) = g' ++ (e' ++ []) := by simpa using heq
  obtain ⟨rfl, rfl, -⟩ := hg.text_unique hg' he he' heq'
  exact he.value_unique he'

theorem scans_sml_unique {r r' : Option (UInt8 × σ)} (h : Scans SmlItem getc s r)
    (h' : Scans SmlItem getc s r') : r = r' :=
  Scans.unique SmlItem.value_unique h h'

theorem gapsEnd_of_escape {e : List UInt8} {v : Option UInt8} (he : SmlEscape e v)
    (hread : Reads getc s e t) : GapsEnd getc s := by
  refine gapsEnd_of_none (he.backslashEnds hread) fun g t' hg hg' => ?_
  obtain ⟨z, z', heq⟩ := hg'.joinable hread
  exact hg.ne_escape he heq

theorem gapsEnd_of_gaps {g : List UInt8} (hg : Gaps g) (hread : Reads getc s g t)
    (hend : GapsEnd getc t) : GapsEnd getc s := by
  induction hg generalizing s with
  | nil =>
    cases hread
    exact hend
  | cons head tail ih =>
    obtain ⟨m, hm, hrest⟩ := Reads.append_iff.mp hread
    exact .gap head hm (ih hrest)

theorem gapsEnd_of_scans {p : UInt8 × σ} (h : Scans SmlItem getc s (some p)) :
    GapsEnd getc s := by
  rcases h with ⟨w, t, v, hlongest, ⟨g, e, hg, he, rfl⟩, -⟩ | ⟨-, hr⟩
  · obtain ⟨m, hm, hrest⟩ := Reads.append_iff.mp hlongest.reads
    exact gapsEnd_of_gaps hg hm (gapsEnd_of_escape he hrest)
  · cases hr

theorem AllItems.gapsEnd (h : AllItems SmlItem getc s cs u) (hend : GapsEnd getc u) :
    GapsEnd getc s := by
  obtain ⟨hitems, -⟩ := h
  cases hitems with
  | nil => exact hend
  | cons head tail => exact gapsEnd_of_scans head

/-- What the loop makes of the items: it takes them all, and it goes on behind a bad
escape. -/
theorem scanRepeat0_items {p : List UInt8 × σ} (h : AllItems SmlItem getc s cs u)
    (hscan : scanRepeat0 (scanChar getc fuel) n [] s = .ok p) :
    GapsEnd getc u ∧ ((¬ BadControl getc u ∧ p = (cs, u)) ∨
      (BadControl getc u ∧ cs.length < p.1.length)) := by
  obtain ⟨hitems, hnone⟩ := h
  induction hitems generalizing n p with
  | nil s =>
    cases n with
    | zero => cases hscan
    | succ n =>
      rw [scanRepeat0_succ] at hscan
      obtain ⟨r, hr, hscan⟩ := except_bind_ok.mp hscan
      obtain ⟨hend, ⟨hgood, hscans⟩ | ⟨hbad, hne, -⟩⟩ := scanChar_ok hr
      · cases scans_sml_unique hscans hnone
        cases hscan
        exact ⟨hend, .inl ⟨hgood, rfl⟩⟩
      · rcases r with _ | ⟨c, t⟩
        · exact absurd rfl hne
        · simp only [scanRepeat0_acc (scanChar getc fuel) n [c]] at hscan
          rcases hrest : scanRepeat0 (scanChar getc fuel) n [] t with e | p'
          · rw [hrest] at hscan
            cases hscan
          · rw [hrest] at hscan
            cases hscan
            exact ⟨hend, .inr ⟨hbad, by simp⟩⟩
  | @cons s t u c cs head tail ih =>
    cases n with
    | zero => cases hscan
    | succ n =>
      have hrun := hscan
      rw [scanRepeat0_succ] at hscan
      obtain ⟨r, hr, -⟩ := except_bind_ok.mp hscan
      obtain ⟨-, ⟨-, hscans⟩ | ⟨-, -, hnone'⟩⟩ := scanChar_ok hr
      · cases scans_sml_unique hscans head
        rw [scanRepeat0_item hr] at hrun
        rcases hrest : scanRepeat0 (scanChar getc fuel) n [] t with e | p'
        · rw [hrest] at hrun
          cases hrun
        · rw [hrest] at hrun
          cases hrun
          obtain ⟨hend, ⟨hgood, rfl⟩ | ⟨hbad, hlt⟩⟩ := ih hrest hnone
          · exact ⟨hend, .inl ⟨hgood, rfl⟩⟩
          · exact ⟨hend, .inr ⟨hbad, by simpa using hlt⟩⟩
      · cases scans_sml_unique hnone' head

/-- With enough fuel `scanChar` returns what it has to return. -/
theorem scanChar_exactly {r : Option (UInt8 × σ)} (h : Scans SmlItem getc s r)
    (hend : GapsEnd getc s) (hgood : ¬ BadControl getc s) :
    ∃ k, ∀ fuel, k ≤ fuel → scanChar getc fuel s = .ok r := by
  obtain ⟨k, hk⟩ := scanChar_returns hend
  refine ⟨k, fun fuel hfuel => ?_⟩
  obtain ⟨r', hr⟩ := hk fuel hfuel
  obtain ⟨-, ⟨-, hscans⟩ | ⟨hbad, -⟩⟩ := scanChar_ok hr
  · rw [hr, scans_sml_unique hscans h]
  · exact absurd hbad hgood

theorem not_badControl_of_scans {p : UInt8 × σ} (h : Scans SmlItem getc s (some p)) :
    ¬ BadControl getc s := by
  rintro ⟨g, c, u, hg, hread, hc⟩
  have hitem : SmlItem (g ++ [chr '\\', chr '^', c]) none :=
    ⟨g, _, hg, hc ▸ .control c, rfl⟩
  cases (hitem.scans_iff hread).mp h

theorem AllItems.decodes (h : AllItems SmlItem getc s cs u) (hend : GapsEnd getc u)
    (hgood : ¬ BadControl getc u) : Decodes (scanChar getc) s cs u := by
  obtain ⟨hitems, hnone⟩ := h
  induction hitems with
  | nil s =>
    obtain ⟨k, hk⟩ := scanChar_exactly hnone hend hgood
    exact .nil hk
  | cons head tail ih =>
    obtain ⟨k, hk⟩ := scanChar_exactly head (gapsEnd_of_scans head)
      (not_badControl_of_scans head)
    exact .cons hk (ih hend hgood hnone)

/-! The scanner for strings. -/

/-- The result of `String.scan` from the gap in front and the items behind it. -/
def finish (gap : Option σ) (s : σ) (p : List UInt8 × σ) :
    Except Stop (Option (List UInt8 × σ)) :=
  match nonempty p with
  | none => .ok (if gap.isSome then some ([], gap.getD s) else none)
  | some p => implodeFirst (some p)

theorem scan_eq {p : UInt8 × σ} (hs : getc s = some p) : scan getc fuel s = (do
    let gap ← scanEscapeSpaces getc fuel s
    let p ← scanRepeat0 (scanChar getc fuel) (fuel + 1) [] (gap.getD s)
    finish gap s p) := by
  rw [scan, hs]
  rcases scanEscapeSpaces getc fuel s with e | gap
  · rfl
  simp only [scanRepeat1_eq]
  rcases gap with _ | s'
  · change (do
      match ← (scanRepeat0 (scanChar getc fuel) (fuel + 1) [] s).map nonempty with
      | none => return none
      | some scanned => implodeFirst (some scanned)) =
        (scanRepeat0 (scanChar getc fuel) (fuel + 1) [] s).bind (finish none s)
    rcases scanRepeat0 (scanChar getc fuel) (fuel + 1) [] s with e | ⟨L, u⟩
    · rfl
    · cases L <;> rfl
  · change (do
      match ← (scanRepeat0 (scanChar getc fuel) (fuel + 1) [] s').map nonempty with
      | none => return some ([], s')
      | some scanned => implodeFirst (some scanned)) =
        (scanRepeat0 (scanChar getc fuel) (fuel + 1) [] s').bind (finish (some s') s)
    rcases scanRepeat0 (scanChar getc fuel) (fuel + 1) [] s' with e | ⟨L, u⟩
    · rfl
    · cases L <;> rfl

/-- `scanEscapeSpaces` finds where the items begin. -/
theorem begins_of_scanEscapeSpaces {gap : Option σ}
    (h : scanEscapeSpaces getc fuel s = .ok gap) : Begins getc s (gap.getD s) ∧
      (gap.isSome = false ↔ ∀ g t, Gap g → ¬ Reads getc s g t) := by
  obtain ⟨-, ⟨g, t, hg, hread, rfl⟩ | ⟨hnone, rfl⟩⟩ := scanEscapeSpaces_ok h
  · exact ⟨.inl ⟨g, hg, hread⟩, iff_of_false (by simp) fun hnone => hnone g t hg hread⟩
  · exact ⟨.inr ⟨hnone, rfl⟩, iff_of_true rfl hnone⟩

theorem Begins.unique (h : Begins getc s t) (h' : Begins getc s u) : t = u := by
  rcases h with ⟨g, hg, hread⟩ | ⟨hnone, rfl⟩
  · rcases h' with ⟨g', hg', hread'⟩ | ⟨hnone', -⟩
    · obtain ⟨z, z', heq⟩ := hread.joinable hread'
      obtain ⟨rfl, -⟩ := hg.text_unique hg' heq
      exact hread.unique hread'
    · exact absurd hread (hnone' g t hg)
  · rcases h' with ⟨g', hg', hread'⟩ | ⟨-, rfl⟩
    · exact absurd hread' (hnone g' u hg')
    · rfl

theorem Begins.gapsEnd (h : Begins getc s t) (hend : GapsEnd getc t) : GapsEnd getc s := by
  rcases h with ⟨g, hg, hread⟩ | ⟨-, rfl⟩
  · exact .gap hg hread hend
  · exact hend

theorem implodeFirst_ok {p : List UInt8 × σ} {r : Option (List UInt8 × σ)}
    (h : implodeFirst (some p) = .ok r) : p.1.length ≤ maxSize ∧ r = some p := by
  rw [implodeFirst, implode] at h
  split at h
  · rename_i hle
    cases h
    exact ⟨hle, rfl⟩
  · cases h

theorem not_scans_at_end (hs : getc s = none) : Scans SmlItem getc s none := by
  refine scans_plain fun w v t hw hread => ?_
  obtain ⟨g, e, -, he, rfl⟩ := hw
  cases hread' : g ++ e with
  | nil =>
    rw [List.append_eq_nil_iff] at hread'
    rw [hread'.2] at he
    cases he
  | cons c w =>
    rw [hread'] at hread
    obtain ⟨s', hs', -⟩ := Reads.cons_iff.mp hread
    rw [hs] at hs'
    cases hs'

theorem begins_at_end (hs : getc s = none) : Begins getc s s := by
  refine .inr ⟨fun g t hg hread => ?_, rfl⟩
  obtain ⟨s1, -, -, -, -, hs1, -⟩ := gap_reads_iff.mp ⟨g, hg, hread⟩
  rw [hs] at hs1
  cases hs1

/-- The run of `String.scan` on a stream of which the items are known. -/
theorem scan_run {p : UInt8 × σ} {s' : σ} (hs : getc s = some p) (hbegins : Begins getc s s')
    (hends : BackslashEnds getc s) (hdecodes : Decodes (scanChar getc) s' cs u) :
    ∃ k, ∀ fuel, k ≤ fuel → ∃ gap : Option σ, gap.getD s = s' ∧
      (gap.isSome = false ↔ ∀ g t, Gap g → ¬ Reads getc s g t) ∧
      scan getc fuel s = finish gap s (cs, u) := by
  obtain ⟨k, hk⟩ := hdecodes.run
  obtain ⟨k', hk'⟩ := scanEscapeSpaces_returns hends
  refine ⟨max (max k k') cs.length, fun fuel hfuel => ?_⟩
  obtain ⟨gap, hgap⟩ := hk' fuel (by omega)
  obtain ⟨hbegins', hsome⟩ := begins_of_scanEscapeSpaces hgap
  refine ⟨gap, hbegins'.unique hbegins, hsome, ?_⟩
  rw [scan_eq hs, hgap]
  change (scanRepeat0 (scanChar getc fuel) (fuel + 1) [] (gap.getD s)).bind (finish gap s) = _
  rw [hbegins'.unique hbegins, hk fuel (fuel + 1) (by omega) (by omega)]
  rfl

theorem implodeFirst_of_le {p : List UInt8 × σ} (h : p.1.length ≤ maxSize) :
    implodeFirst (some p) = .ok (some p) := by
  rw [implodeFirst, implode, if_pos h]
  rfl

theorem finish_cons {gap : Option σ} {c : UInt8} (h : (c :: cs).length ≤ maxSize) :
    finish gap s (c :: cs, u) = .ok (some (c :: cs, u)) :=
  implodeFirst_of_le (p := (c :: cs, u)) h

/-- `String.scan` is exact where the string is not too long and what stands behind it is
not accepted by mistake. -/
theorem scan_exact : (∃ fuel r, scan getc fuel s = .ok r ∧ ScansString getc s r) ↔
    StringOk getc s := by
  rcases hs : getc s with _ | p
  · have hall : AllItems SmlItem getc s [] s := ⟨.nil s, not_scans_at_end hs⟩
    have hplain : GapsEnd getc s := .plain (by simp [hs])
    constructor
    · intro _
      refine ⟨s, [], s, begins_at_end hs, hall, Nat.zero_le _, ?_, hplain⟩
      rintro ⟨g, c, u, -, hread, -⟩
      cases hw : g ++ [chr '\\', chr '^', c] with
      | nil => simp at hw
      | cons c' w =>
        rw [hw] at hread
        obtain ⟨s', hs', -⟩ := Reads.cons_iff.mp hread
        rw [hs] at hs'
        cases hs'
    · intro _
      refine ⟨0, some ([], s), by rw [scan, hs], s, [], s, begins_at_end hs, hall, .inr ⟨?_, rfl⟩⟩
      simp [hs]
  constructor
  · rintro ⟨fuel, r, hscan, s', cs, u, hbegins, hall, hr⟩
    rw [scan_eq hs] at hscan
    obtain ⟨gap, hgap, hscan⟩ := except_bind_ok.mp hscan
    obtain ⟨p', hloop, hfinish⟩ := except_bind_ok.mp hscan
    obtain ⟨hbegins', hsome⟩ := begins_of_scanEscapeSpaces hgap
    cases hbegins.unique hbegins'
    obtain ⟨hend, ⟨hgood, rfl⟩ | ⟨hbad, hlt⟩⟩ := scanRepeat0_items hall hloop
    · refine ⟨_, cs, u, hbegins, hall, ?_, hgood, hend⟩
      rw [finish] at hfinish
      cases cs with
      | nil => exact Nat.zero_le _
      | cons c cs => exact (implodeFirst_ok hfinish).1
    · exfalso
      obtain ⟨L, u'⟩ := p'
      cases L with
      | nil => simp at hlt
      | cons c L =>
        obtain ⟨-, rfl⟩ := implodeFirst_ok (show implodeFirst (some (c :: L, u')) = _ from hfinish)
        rcases hr with ⟨-, hr⟩ | ⟨-, hr⟩
        · cases hr
        · cases hr
          simp at hlt
  · rintro ⟨s', cs, u, hbegins, hall, hlen, hgood, hend⟩
    obtain ⟨k, hk⟩ := scan_run hs hbegins (hbegins.gapsEnd (hall.gapsEnd hend)).backslashEnds
      (hall.decodes hend hgood)
    obtain ⟨gap, rfl, hsome, hrun⟩ := hk k (Nat.le_refl k)
    cases cs with
    | nil =>
      have hitems := hall.1
      cases hitems
      refine ⟨k, _, hrun, gap.getD s, [], gap.getD s, hbegins, hall, ?_⟩
      rcases gap with _ | s'
      · exact .inl ⟨⟨rfl, by simp [hs], hsome.mp rfl⟩, rfl⟩
      · refine .inr ⟨?_, rfl⟩
        rintro ⟨-, -, hnone⟩
        exact absurd (hsome.mpr hnone) (by simp)
    | cons c cs =>
      exact ⟨k, _, hrun.trans (finish_cons hlen), gap.getD s, c :: cs, u, hbegins, hall,
        .inr ⟨by simp, rfl⟩⟩

/-- Exactly where the scanners are right: the caret escapes stand for control
characters, the octal escapes of C are not above 255, and what a loop skips comes to
an end. -/
theorem scanners_exact (getc : Reader UInt8 σ) (s : σ) :
    ((∃ fuel r, scanChar getc fuel s = .ok r ∧ Scans SmlItem getc s r) ↔
      ¬ BadControl getc s ∧ GapsEnd getc s) ∧
    ((∃ fuel r, scanCChar getc fuel s = .ok r ∧ Scans CItem getc s r) ↔
      ¬ BadCEscape getc s ∧ CZerosEnd getc s) ∧
    ((∃ fuel r, scan getc fuel s = .ok r ∧ ScansString getc s r) ↔ StringOk getc s) :=
  ⟨scanChar_exact, scanCChar_exact, scan_exact⟩

/-- `\^a` is taken for `!`, and the octal escape `\400` for a null character. -/
theorem scanners_accept_more :
    (¬ ∃ fuel r, scanChar (stringReader [chr '\\', chr '^', chr 'a']) fuel 0 = .ok r ∧
      Scans SmlItem (stringReader [chr '\\', chr '^', chr 'a']) 0 r) ∧
    ¬ ∃ fuel r,
      scanCChar (stringReader [chr '\\', chr '4', chr '0', chr '0']) fuel 0 = .ok r ∧
        Scans CItem (stringReader [chr '\\', chr '4', chr '0', chr '0']) 0 r := by
  constructor
  · rw [scanChar_exact]
    rintro ⟨hgood, -⟩
    refine hgood ⟨[], chr 'a', 3, .nil, ?_, by decide⟩
    exact .cons rfl (.cons rfl (.one rfl))
  · rw [scanCChar_exact]
    rintro ⟨hgood, -⟩
    refine hgood (.inr ⟨[chr '4', chr '0', chr '0'], 256, 4, rfl, by decide, by decide, ?_⟩)
    exact .cons rfl (.cons rfl (.cons rfl (.one rfl)))

end ScanChar

end SmlSharp
