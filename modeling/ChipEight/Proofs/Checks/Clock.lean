import ChipEight.Clock
import ChipEight.Proofs.Checks.Numbers
import ChipEight.Text.Duration
import Mathlib.Algebra.Ring.Nat

/-!
# The clock, one period at a time

A clock that does not divide: a call adds the time that has passed to the time carried over, and
then takes periods off the sum and counts them until less than one is left. Times are nanoseconds
up to a limit and the ticks of one call are a word of 32 bits, so adding, subtracting and counting
are all checked. Such a clock stands for a `Clock`, and as long as each call stays within the
limits the checks pass and the calls answer as that clock does.

The loop ends because the time left goes down with every pass, which needs a period that is not
zero. What it keeps is that the time counted and the time left make up the time there was
(`PlainClock.Count.Accounts`), and with less than a period left the two can only be a quotient and
its remainder. Over several calls the quotients add up, whatever the calls are: the clock neither
loses time nor invents any (`PlainClock.keeps_time`).

* `Clock.sum_advanceAll` : the ticks of several calls together, on a clock that divides;
* `TimeSpan`, `TimeSpan.add?`, `TimeSpan.sub?` : times within the limit, added and subtracted with
  checks;
* `PlainClock.Count.next?`, `PlainClock.Count.run?` : one pass of the loop, and the loop;
* `PlainClock.advance?`, `PlainClock.advanceAll?` : one call, and one call after the other;
* `PlainClock.Affordable` : calls that stay within the limits, which is when all checks pass
  (`PlainClock.isSome_advanceAll?_iff`), and which splitting a call keeps
  (`PlainClock.affordable_split`);
* `PlainClock.KeepsTime` : what the answers of a new clock have to satisfy.
-/

namespace ChipEight

/-! ### Clocks that divide -/

namespace Clock

variable {c : Clock}

theorem advance_of_pos (hp : 0 < c.period) (d : Nat) :
    c.advance d =
      ((c.carried + d) / c.period, { c with carried := (c.carried + d) % c.period }) :=
  if_neg (Nat.ne_of_gt hp)

/-- The whole periods of a time that comes in two parts, when the first leaves its remainder to
the second. -/
theorem add_div_of_carry {p : Nat} (hp : 0 < p) (a b : Nat) :
    a / p + (a % p + b) / p = (a + b) / p := by
  have hsplit : a + b = (a % p + b) + p * (a / p) := by
    have := Nat.div_add_mod a p
    omega
  rw [hsplit, Nat.add_mul_div_left _ _ hp, Nat.add_comm]

/-- All ticks together are the whole periods of all the time together. -/
theorem sum_advanceAll (h : c.carried < c.period) (ds : List Nat) :
    (c.advanceAll ds).sum = (c.carried + ds.sum) / c.period := by
  have hp : 0 < c.period := Nat.zero_lt_of_lt h
  induction ds generalizing c with
  | nil => exact (Nat.div_eq_of_lt h).symm
  | cons d ds ih =>
    rw [advanceAll, advance_of_pos hp, List.sum_cons, List.sum_cons]
    rw [ih (c := { c with carried := (c.carried + d) % c.period }) (Nat.mod_lt _ hp) hp,
      add_div_of_carry hp, Nat.add_assoc]

@[simp] theorem length_advanceAll (ds : List Nat) : (c.advanceAll ds).length = ds.length := by
  induction ds generalizing c with
  | nil => rfl
  | cons d ds ih => simp [advanceAll, ih]

theorem take_advanceAll (ds : List Nat) (j : Nat) :
    (c.advanceAll ds).take j = c.advanceAll (ds.take j) := by
  induction ds generalizing c j with
  | nil => simp [advanceAll]
  | cons d ds ih =>
    cases j with
    | zero => rfl
    | succ j => simp [advanceAll, ih]

end Clock

/-! ### Stretches of time -/

/-- The first time in nanoseconds that is too long: its seconds no longer fit 64 bits. -/
def spanLimit : Nat := wordCount 64 * TimeUnit.second.length

/-- A stretch of time. -/
structure TimeSpan where
  /-- Its length in nanoseconds. -/
  nanos : Nat
  /-- It is not too long. -/
  nanos_lt : nanos < spanLimit
deriving DecidableEq, Repr

namespace TimeSpan

/-- No time. -/
def zero : TimeSpan := ⟨0, by decide⟩

/-- A number of milliseconds. -/
def ofMillis (n : Nat) (h : n * TimeUnit.millisecond.length < spanLimit := by decide) : TimeSpan :=
  ⟨n * TimeUnit.millisecond.length, h⟩

/-- Two stretches of time together, unless they are too long. -/
def add? (a b : TimeSpan) : Option TimeSpan :=
  if h : a.nanos + b.nanos < spanLimit then some ⟨a.nanos + b.nanos, h⟩ else none

/-- What is left of `a` without `b`, unless `b` is longer. -/
def sub? (a b : TimeSpan) : Option TimeSpan :=
  if b.nanos ≤ a.nanos then
    some ⟨a.nanos - b.nanos, Nat.lt_of_le_of_lt (Nat.sub_le ..) a.nanos_lt⟩
  else none

theorem nanos_of_add? {a b d : TimeSpan} (h : a.add? b = some d) :
    a.nanos + b.nanos < spanLimit ∧ d.nanos = a.nanos + b.nanos := by
  unfold add? at h
  split at h
  next hlt => exact ⟨hlt, by rw [← Option.some.inj h]⟩
  next => cases h

theorem nanos_of_sub? {a b d : TimeSpan} (h : a.sub? b = some d) :
    b.nanos ≤ a.nanos ∧ d.nanos = a.nanos - b.nanos := by
  unfold sub? at h
  split at h
  next hle => exact ⟨hle, by rw [← Option.some.inj h]⟩
  next => cases h

/-- The length of several stretches of time in a row. -/
def total (ds : List TimeSpan) : Nat := (ds.map nanos).sum

@[simp] theorem total_nil : total [] = 0 := rfl

@[simp] theorem total_cons (d : TimeSpan) (ds : List TimeSpan) :
    total (d :: ds) = d.nanos + total ds :=
  List.sum_cons

@[simp] theorem total_append (ds es : List TimeSpan) : total (ds ++ es) = total ds + total es := by
  simp [total]

end TimeSpan

/-- A clock that takes off one period at a time. -/
structure PlainClock where
  /-- The time between two ticks; a clock with period 0 stands still. -/
  period : TimeSpan
  /-- The time that has passed since the last tick. -/
  elapsed : TimeSpan
deriving DecidableEq, Repr

namespace PlainClock

open TimeSpan (total)

/-- A clock that starts now. -/
def new (period : TimeSpan) : PlainClock := ⟨period, .zero⟩

/-- The clock that a plain clock stands for. -/
def view (c : PlainClock) : Clock := ⟨c.period.nanos, c.elapsed.nanos⟩

/-! ### The loop -/

/-- How far a call has come. -/
structure Count where
  /-- The time from which no more periods have been taken off. -/
  left : TimeSpan
  /-- The periods that have been taken off. -/
  ticks : BitVec 32

namespace Count

variable {period : TimeSpan} {time : Nat} {c c' : Count}

/-- Takes off one period and counts it. -/
def next? (period : TimeSpan) (c : Count) : Option Count := do
  let left ← c.left.sub? period
  let ticks ← ChipEight.add? c.ticks 1
  some ⟨left, ticks⟩

/-- What a pass does if its checks pass. -/
theorem of_next? (h : next? period c = some c') :
    period.nanos ≤ c.left.nanos ∧ c'.left.nanos = c.left.nanos - period.nanos ∧
      c'.ticks.toNat = c.ticks.toNat + 1 := by
  unfold next? at h
  obtain ⟨left, hleft, h⟩ := Option.bind_eq_some_iff.1 h
  obtain ⟨ticks, hticks, h⟩ := Option.bind_eq_some_iff.1 h
  obtain ⟨hle, hnanos⟩ := TimeSpan.nanos_of_sub? hleft
  cases h
  exact ⟨hle, hnanos, toNat_of_add? hticks⟩

/-- The checks of a pass: a period is left, and the count still fits its word. -/
theorem exists_next? (hle : period.nanos ≤ c.left.nanos)
    (hcount : c.ticks.toNat + 1 < wordCount 32) : ∃ c', next? period c = some c' := by
  unfold next?
  rw [TimeSpan.sub?, if_pos hle, add?_eq_some hcount]
  exact ⟨_, rfl⟩

theorem left_lt_of_next? (hp : 0 < period.nanos) (h : next? period c = some c') :
    c'.left.nanos < c.left.nanos := by
  obtain ⟨hle, hleft, -⟩ := of_next? h
  omega

/-- Takes off periods and counts them until less than one is left. -/
def run? (period : TimeSpan) (hp : 0 < period.nanos) (c : Count) : Option Count :=
  if period.nanos ≤ c.left.nanos then
    match h : next? period c with
    | none => none
    | some c' =>
      have : c'.left.nanos < c.left.nanos := left_lt_of_next? hp h
      run? period hp c'
  else some c
termination_by c.left.nanos

/-- What has been counted and what is left make up the time there was. -/
def Accounts (period : TimeSpan) (time : Nat) (c : Count) : Prop :=
  period.nanos * c.ticks.toNat + c.left.nanos = time

theorem accounts_start (left : TimeSpan) : Accounts period left.nanos ⟨left, 0⟩ := by
  unfold Accounts
  simp

theorem accounts_next? (hnext : next? period c = some c') (h : Accounts period time c) :
    Accounts period time c' := by
  obtain ⟨hle, hleft, hticks⟩ := of_next? hnext
  unfold Accounts at h ⊢
  rw [hleft, hticks, Nat.mul_succ]
  omega

/-- The sum stays what it is, and the loop does not end before less than a period is left. -/
theorem accounts_run? {hp : 0 < period.nanos} (hrun : run? period hp c = some c')
    (h : Accounts period time c) : Accounts period time c' ∧ c'.left.nanos < period.nanos := by
  fun_induction run? period hp c with
  | case1 => cases hrun
  | case2 c hle c₁ hnext hlt ih => exact ih hrun (accounts_next? hnext h)
  | case3 c hlt =>
    cases hrun
    exact ⟨h, Nat.lt_of_not_le hlt⟩

/-- A time that owes no more ticks than a word holds passes all the checks: while a period is left,
one more tick is still among those that are owed. -/
theorem exists_run? (hp : 0 < period.nanos) (hdue : time / period.nanos < wordCount 32)
    (h : Accounts period time c) : ∃ c', run? period hp c = some c' := by
  fun_induction run? period hp c with
  | case1 c hle hnone =>
    have hcount : c.ticks.toNat + 1 ≤ time / period.nanos := by
      unfold Accounts at h
      rw [Nat.le_div_iff_mul_le hp, Nat.mul_comm, Nat.mul_succ]
      omega
    obtain ⟨c', hnext⟩ := exists_next? hle (Nat.lt_of_le_of_lt hcount hdue)
    rw [hnext] at hnone
    cases hnone
  | case2 c hle c₁ hnext hlt ih => exact ih (accounts_next? hnext h)
  | case3 c hlt => exact ⟨c, rfl⟩

/-- With less than a period left, the count is the quotient and the time left the remainder. -/
theorem eq_div_mod (hp : 0 < period.nanos) (h : Accounts period time c)
    (hlt : c.left.nanos < period.nanos) :
    c.ticks.toNat = time / period.nanos ∧ c.left.nanos = time % period.nanos := by
  have hsum : c.left.nanos + period.nanos * c.ticks.toNat = time := by
    rw [Nat.add_comm]
    exact h
  obtain ⟨hdiv, hmod⟩ := (Nat.div_mod_unique hp).2 ⟨hsum, hlt⟩
  exact ⟨hdiv.symm, hmod.symm⟩

end Count

/-! ### Calls -/

/-- The ticks that fall due when `delta` more has passed, and the clock then. -/
def advance? (c : PlainClock) (delta : TimeSpan) : Option (BitVec 32 × PlainClock) :=
  if hp : 0 < c.period.nanos then do
    let elapsed ← c.elapsed.add? delta
    let count ← Count.run? c.period hp ⟨elapsed, 0⟩
    some (count.ticks, { c with elapsed := count.left })
  else some (0, c)

/-- The ticks that fall due after each stretch of time, and the clock in the end. -/
def advanceAll? (c : PlainClock) : List TimeSpan → Option (List (BitVec 32) × PlainClock)
  | [] => some ([], c)
  | delta :: rest => do
    let (ticks, c) ← c.advance? delta
    let (later, c) ← advanceAll? c rest
    some (ticks :: later, c)

variable {c : PlainClock}

theorem of_advance? {delta : TimeSpan} {ticks : BitVec 32} {c' : PlainClock}
    (hp : 0 < c.period.nanos) (h : c.advance? delta = some (ticks, c')) :
    c'.period = c.period ∧ (ticks.toNat, c'.view) = c.view.advance delta.nanos ∧
      c.elapsed.nanos + delta.nanos < spanLimit ∧
      (c.elapsed.nanos + delta.nanos) / c.period.nanos < wordCount 32 := by
  rw [advance?, dif_pos hp] at h
  obtain ⟨elapsed, hadd, h⟩ := Option.bind_eq_some_iff.1 h
  obtain ⟨count, hrun, h⟩ := Option.bind_eq_some_iff.1 h
  obtain ⟨hlimit, helapsed⟩ := TimeSpan.nanos_of_add? hadd
  cases h
  obtain ⟨hacc, hlt⟩ := Count.accounts_run? hrun (Count.accounts_start elapsed)
  obtain ⟨hticks, hleft⟩ := Count.eq_div_mod hp hacc hlt
  rw [helapsed] at hticks hleft
  refine ⟨rfl, ?_, hlimit, hticks ▸ toNat_lt_wordCount _⟩
  rw [Clock.advance_of_pos (c := c.view) hp]
  unfold view
  simp [hticks, hleft]

theorem elapsed_of_advance? {delta : TimeSpan} {ticks : BitVec 32} {c' : PlainClock}
    (hp : 0 < c.period.nanos) (h : c.advance? delta = some (ticks, c')) :
    c'.elapsed.nanos = (c.elapsed.nanos + delta.nanos) % c.period.nanos := by
  obtain ⟨-, hanswer, -⟩ := of_advance? hp h
  rw [Clock.advance_of_pos (c := c.view) hp] at hanswer
  exact congrArg (fun answer => answer.2.carried) hanswer

theorem exists_advance? {delta : TimeSpan} (hp : 0 < c.period.nanos)
    (hadd : c.elapsed.nanos + delta.nanos < spanLimit)
    (hdue : (c.elapsed.nanos + delta.nanos) / c.period.nanos < wordCount 32) :
    ∃ ticks c', c.advance? delta = some (ticks, c') := by
  obtain ⟨count, hrun⟩ := Count.exists_run? hp hdue
    (Count.accounts_start ⟨c.elapsed.nanos + delta.nanos, hadd⟩)
  refine ⟨count.ticks, { c with elapsed := count.left }, ?_⟩
  rw [advance?, dif_pos hp, TimeSpan.add?, dif_pos hadd]
  change (Count.run? c.period hp _).bind _ = _
  rw [hrun]
  rfl

/-- A clock with period 0 stands still. -/
theorem advanceAll?_of_period_zero (h : c.period.nanos = 0) (ds : List TimeSpan) :
    c.advanceAll? ds = some (List.replicate ds.length 0, c) := by
  have hadvance (d : TimeSpan) : c.advance? d = some (0, c) := dif_neg (by omega)
  induction ds with
  | nil => rfl
  | cons d ds ih => simp [advanceAll?, hadvance, ih, List.replicate_succ]

/-- Calls that stay within the limits, made one after the other on a clock that carries over
`carried`: the time added up is not too long, and no call owes more ticks than a word holds. -/
def Affordable (period : Nat) : Nat → List TimeSpan → Prop
  | _, [] => True
  | carried, d :: ds =>
    carried + d.nanos < spanLimit ∧ (carried + d.nanos) / period < wordCount 32 ∧
      Affordable period ((carried + d.nanos) % period) ds

/-- Whether calls stay within the limits is found by going through them. -/
instance decidableAffordable (period : Nat) :
    (carried : Nat) → (ds : List TimeSpan) → Decidable (Affordable period carried ds)
  | _, [] => inferInstanceAs (Decidable True)
  | carried, d :: ds =>
    have := decidableAffordable period ((carried + d.nanos) % period) ds
    inferInstanceAs (Decidable (_ ∧ _ ∧ _))

theorem Affordable.take {period carried : Nat} {ds : List TimeSpan}
    (h : Affordable period carried ds) (j : Nat) : Affordable period carried (ds.take j) := by
  induction ds generalizing carried j with
  | nil => simpa using h
  | cons d ds ih =>
    cases j with
    | zero => trivial
    | succ j => exact ⟨h.1, h.2.1, ih h.2.2 j⟩

/-- Time that comes in parts stays within the limits if it does so at once. -/
theorem affordable_parts {period carried : Nat} {parts later : List TimeSpan}
    (hc : carried < period) (hadd : carried + total parts < spanLimit)
    (hdue : (carried + total parts) / period < wordCount 32)
    (hlater : Affordable period ((carried + total parts) % period) later) :
    Affordable period carried (parts ++ later) := by
  have hp : 0 < period := Nat.zero_lt_of_lt hc
  induction parts generalizing carried with
  | nil => simpa [Nat.mod_eq_of_lt hc] using hlater
  | cons d parts ih =>
    rw [TimeSpan.total_cons, ← Nat.add_assoc] at hadd hdue hlater
    have hmod : (carried + d.nanos) % period ≤ carried + d.nanos := Nat.mod_le ..
    have hle : (carried + d.nanos) % period + total parts ≤ carried + d.nanos + total parts := by
      omega
    refine ⟨by omega, ?_, ih (Nat.mod_lt _ hp) (by omega) ?_ ?_⟩
    · exact Nat.lt_of_le_of_lt (Nat.div_le_div_right (Nat.le_add_right ..)) hdue
    · exact Nat.lt_of_le_of_lt (Nat.div_le_div_right hle) hdue
    · rwa [Nat.mod_add_mod]

/-- Calls within the limits stay within them when one of them is split. -/
theorem affordable_split {period carried : Nat} {earlier parts later : List TimeSpan}
    {whole : TimeSpan} (hc : carried < period) (hparts : total parts = whole.nanos)
    (h : Affordable period carried (earlier ++ whole :: later)) :
    Affordable period carried (earlier ++ (parts ++ later)) := by
  induction earlier generalizing carried with
  | nil =>
    rw [List.nil_append] at h ⊢
    obtain ⟨hadd, hdue, hlater⟩ := h
    rw [← hparts] at hadd hdue hlater
    exact affordable_parts hc hadd hdue hlater
  | cons d earlier ih => exact ⟨h.1, h.2.1, ih (Nat.mod_lt _ (Nat.zero_lt_of_lt hc)) h.2.2⟩

theorem of_advanceAll? (hc : c.elapsed.nanos < c.period.nanos) {ds : List TimeSpan}
    {ticks : List (BitVec 32)} {c' : PlainClock} (h : c.advanceAll? ds = some (ticks, c')) :
    c'.period = c.period ∧ ticks.map BitVec.toNat = c.view.advanceAll (ds.map TimeSpan.nanos) ∧
      c'.elapsed.nanos = (c.elapsed.nanos + total ds) % c.period.nanos ∧
      Affordable c.period.nanos c.elapsed.nanos ds := by
  have hp : 0 < c.period.nanos := Nat.zero_lt_of_lt hc
  induction ds generalizing c ticks with
  | nil =>
    cases h
    exact ⟨rfl, rfl, (Nat.mod_eq_of_lt hc).symm, trivial⟩
  | cons d ds ih =>
    obtain ⟨⟨tick, c₁⟩, hcall, h⟩ := Option.bind_eq_some_iff.1 h
    obtain ⟨⟨later, c₂⟩, hcalls, h⟩ := Option.bind_eq_some_iff.1 h
    cases h
    obtain ⟨hperiod, hanswer, hadd, hdue⟩ := of_advance? hp hcall
    have hleft := elapsed_of_advance? hp hcall
    have hc₁ : c₁.elapsed.nanos < c₁.period.nanos := by
      rw [hleft, hperiod]
      exact Nat.mod_lt _ hp
    obtain ⟨hperiod', hlater, hleft', hrest⟩ := ih hc₁ hcalls (Nat.zero_lt_of_lt hc₁)
    rw [hleft, hperiod] at hrest hleft'
    refine ⟨hperiod'.trans hperiod, ?_, ?_, hadd, hdue, hrest⟩
    · rw [List.map_cons, List.map_cons, Clock.advanceAll, hlater, ← hanswer]
    · rw [hleft', Nat.mod_add_mod, TimeSpan.total_cons, Nat.add_assoc]

/-- Calls within the limits pass their checks. -/
theorem exists_advanceAll? (hp : 0 < c.period.nanos) {ds : List TimeSpan}
    (h : Affordable c.period.nanos c.elapsed.nanos ds) :
    ∃ ticks c', c.advanceAll? ds = some (ticks, c') := by
  induction ds generalizing c with
  | nil => exact ⟨[], c, rfl⟩
  | cons d ds ih =>
    obtain ⟨hadd, hdue, hrest⟩ := h
    obtain ⟨tick, c₁, hcall⟩ := exists_advance? hp hadd hdue
    have hperiod : c₁.period = c.period := (of_advance? hp hcall).1
    rw [← elapsed_of_advance? hp hcall, ← hperiod] at hrest
    obtain ⟨ticks, c', hcalls⟩ := ih (hperiod ▸ hp) hrest
    refine ⟨tick :: ticks, c', ?_⟩
    simp [advanceAll?, hcall, hcalls]

/-- The limits are what the checks demand, no more. -/
theorem isSome_advanceAll?_iff (hc : c.elapsed.nanos < c.period.nanos) (ds : List TimeSpan) :
    (c.advanceAll? ds).isSome = true ↔ Affordable c.period.nanos c.elapsed.nanos ds := by
  rw [Option.isSome_iff_exists]
  constructor
  · rintro ⟨⟨ticks, c'⟩, h⟩
    exact (of_advanceAll? hc h).2.2.2
  · intro h
    obtain ⟨ticks, c', hcalls⟩ := exists_advanceAll? (Nat.zero_lt_of_lt hc) h
    exact ⟨_, hcalls⟩

/-! ### Time kept -/

/-- The answers `ticks` of a new clock to the stretches of time `deltas` neither lose time nor
invent any. -/
structure KeepsTime (period : TimeSpan) (deltas : List TimeSpan) (ticks : List (BitVec 32)) :
    Prop where
  /-- Each call answers. -/
  length_eq : ticks.length = deltas.length
  /-- After any number of calls the clock carries the remainder of the time so far, which is less
  than a period. -/
  carries (j : Nat) : ∃ c, (new period).advanceAll? (deltas.take j) = some (ticks.take j, c) ∧
    c.period = period ∧ c.elapsed.nanos = total (deltas.take j) % period.nanos ∧
    c.elapsed.nanos < period.nanos
  /-- After any number of calls the ticks together are the whole periods of the time so far. -/
  sum_take (j : Nat) :
    ((ticks.take j).map BitVec.toNat).sum = total (deltas.take j) / period.nanos
  /-- The answers are those of the clock that divides. -/
  divides : ticks.map BitVec.toNat = (Clock.new period.nanos).advanceAll (deltas.map TimeSpan.nanos)

namespace KeepsTime

variable {period : TimeSpan} {deltas : List TimeSpan} {ticks : List (BitVec 32)}

theorem sum_eq (h : KeepsTime period deltas ticks) :
    (ticks.map BitVec.toNat).sum = total deltas / period.nanos := by
  have hall := h.sum_take deltas.length
  rwa [List.take_length, List.take_of_length_le (Nat.le_of_eq h.length_eq)] at hall

end KeepsTime

theorem exists_keepsTime {period : TimeSpan} {deltas : List TimeSpan} (hp : 0 < period.nanos)
    (h : Affordable period.nanos 0 deltas) : ∃ ticks, KeepsTime period deltas ticks := by
  obtain ⟨ticks, c, hcalls⟩ := exists_advanceAll? (c := new period) hp h
  obtain ⟨-, hticks, -⟩ := of_advanceAll? (c := new period) hp hcalls
  refine ⟨ticks, ?_, fun j => ?_, fun j => ?_, hticks⟩
  · simpa using congrArg List.length hticks
  · -- the first calls stay within the limits as well, and so their answers are known, too
    obtain ⟨first, c, hcalls⟩ := exists_advanceAll? (c := new period) hp (h.take j)
    obtain ⟨hperiod, hfirst, hleft, -⟩ := of_advanceAll? (c := new period) hp hcalls
    have hsame : first = ticks.take j := by
      refine (List.map_inj_right fun _ _ => BitVec.eq_of_toNat_eq).1 ?_
      rw [hfirst, List.map_take, List.map_take, hticks, Clock.take_advanceAll]
    have hrest : c.elapsed.nanos = total (deltas.take j) % period.nanos := by
      rw [hleft]
      exact congrArg (· % period.nanos) (Nat.zero_add _)
    exact ⟨c, hsame ▸ hcalls, hperiod, hrest, hrest ▸ Nat.mod_lt _ hp⟩
  · rw [List.map_take, hticks, Clock.take_advanceAll, Clock.sum_advanceAll hp, ← List.map_take]
    exact congrArg (· / period.nanos) (Nat.zero_add _)

/-- **A clock loses no time and invents none.** With a period that is not zero, the calls of a new
clock that stay within the limits end and answer, and keep time. Splitting one of the stretches of
time into any others of the same length together, or putting these together again, leaves the
ticks as many as they are. With period 0 every call answers that no ticks fall due. -/
theorem keeps_time (period : TimeSpan) (deltas : List TimeSpan) :
    (0 < period.nanos → Affordable period.nanos 0 deltas →
      ∃ ticks, KeepsTime period deltas ticks ∧
        ∀ earlier whole parts later, deltas = earlier ++ whole :: later →
          total parts = whole.nanos →
          ∃ ticks', KeepsTime period (earlier ++ (parts ++ later)) ticks' ∧
            (ticks'.map BitVec.toNat).sum = (ticks.map BitVec.toNat).sum) ∧
    (period.nanos = 0 →
      (new period).advanceAll? deltas = some (List.replicate deltas.length 0, new period)) := by
  refine ⟨fun hp h => ?_, fun hzero => advanceAll?_of_period_zero hzero deltas⟩
  obtain ⟨ticks, hkeeps⟩ := exists_keepsTime hp h
  refine ⟨ticks, hkeeps, ?_⟩
  rintro earlier whole parts later rfl hparts
  obtain ⟨ticks', hkeeps'⟩ := exists_keepsTime hp (affordable_split hp hparts h)
  refine ⟨ticks', hkeeps', ?_⟩
  have htotal : total (earlier ++ (parts ++ later)) = total (earlier ++ whole :: later) := by
    simp only [TimeSpan.total_append, TimeSpan.total_cons, hparts]
  rw [hkeeps'.sum_eq, hkeeps.sum_eq, htotal]

/-- Stretches of 6, 6 and 28 milliseconds. -/
def unevenDeltas : List TimeSpan := [.ofMillis 6, .ofMillis 6, .ofMillis 28]

/-- The same with the last of them in three parts. -/
def splitDeltas : List TimeSpan :=
  [.ofMillis 6, .ofMillis 6, .ofMillis 5, .ofMillis 5, .ofMillis 18]

/-- With 10 milliseconds between two ticks, 6, 6 and 28 milliseconds make 0, 1 and 3 ticks, and as
many come of 5, 5 and 18 milliseconds in place of the last 28. Without a period there are none. -/
theorem keeps_time_uneven :
    (0 < (TimeSpan.ofMillis 10).nanos ∧ Affordable (TimeSpan.ofMillis 10).nanos 0 unevenDeltas ∧
      ∃ ticks ticks', KeepsTime (.ofMillis 10) unevenDeltas ticks ∧
        KeepsTime (.ofMillis 10) splitDeltas ticks' ∧
        ticks.map BitVec.toNat = [0, 1, 3] ∧ ticks'.map BitVec.toNat = [0, 1, 0, 1, 2] ∧
        (ticks'.map BitVec.toNat).sum = (ticks.map BitVec.toNat).sum) ∧
    (new .zero).advanceAll? unevenDeltas = some ([0, 0, 0], new .zero) := by
  have hp : 0 < (TimeSpan.ofMillis 10).nanos := by decide
  have hlimits : Affordable (TimeSpan.ofMillis 10).nanos 0 unevenDeltas := by decide
  refine ⟨⟨hp, hlimits, ?_⟩, (keeps_time .zero unevenDeltas).2 rfl⟩
  obtain ⟨ticks, hkeeps, hsplit⟩ := (keeps_time (.ofMillis 10) unevenDeltas).1 hp hlimits
  obtain ⟨ticks', hkeeps', hsum⟩ :=
    hsplit [.ofMillis 6, .ofMillis 6] (.ofMillis 28) [.ofMillis 5, .ofMillis 5, .ofMillis 18] []
      rfl (by decide)
  refine ⟨ticks, ticks', hkeeps, hkeeps', ?_, ?_, hsum⟩
  · rw [hkeeps.divides]
    decide
  · rw [hkeeps'.divides]
    decide

end PlainClock

end ChipEight
