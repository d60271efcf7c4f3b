import ChipEight.Word

/-!
# The timers

Two timers count down to zero, one step at each tick, and stay there. The buzzer sounds while the
sound timer is above zero.

* `Timers` : the delay timer and the sound timer;
* `Timers.tick`, `Timers.after` : one tick and several;
* `Timers.buzzer`, `Timers.buzzers` : what each of them does to the buzzer;
* `Timers.toNat_after` : how far several ticks count down;
* `Timers.buzzer_cases` : what a tick does to the buzzer, by the sound timer before it;
* `Timers.stops_eq` : at most one of them stops the buzzer.
-/

namespace ChipEight

/-- What a tick does to the buzzer. -/
inductive Buzzer where
  /-- The sound timer is still counting down. -/
  | sounding
  /-- The sound timer has just reached zero. -/
  | stopped
  /-- The sound timer was at zero before. -/
  | silent
deriving DecidableEq, Repr

/-- The two timers. -/
structure Timers where
  /-- The delay timer, which programs can read. -/
  delay : Byte
  /-- The sound timer. -/
  sound : Byte
deriving DecidableEq, Repr

/-- A timer one tick later: one less, but never below zero. -/
def countDown (b : Byte) : Byte := BitVec.ofNat 8 (b.toNat - 1)

theorem toNat_countDown (b : Byte) : (countDown b).toNat = b.toNat - 1 := by
  have := b.isLt
  rw [countDown, BitVec.toNat_ofNat]
  omega

namespace Timers

/-- Both timers are at zero. -/
def zero : Timers := ⟨0, 0⟩

variable (t : Timers)

/-- Whether the buzzer sounds. -/
def isSounding : Bool := t.sound != 0

/-- What the next tick does to the buzzer. -/
def buzzer : Buzzer :=
  if t.sound = 0 then .silent else if t.sound = 1 then .stopped else .sounding

/-- The timers one tick later. -/
def tick : Timers := ⟨countDown t.delay, countDown t.sound⟩

end Timers

/-- The timers after `n` ticks. -/
def Timers.after : Nat → Timers → Timers
  | 0, t => t
  | n + 1, t => after n t.tick

/-- What each of the next `n` ticks does to the buzzer. -/
def Timers.buzzers : Nat → Timers → List Buzzer
  | 0, _ => []
  | n + 1, t => t.buzzer :: buzzers n t.tick

namespace Timers

theorem isSounding_iff {t : Timers} : t.isSounding = true ↔ 0 < t.sound.toNat := by
  have h : (0 : Byte).toNat = 0 := rfl
  rw [isSounding, bne_iff_ne, ne_eq, ← BitVec.toNat_inj, h]
  omega

/-- Each tick takes one from both timers, as long as there is something left. -/
theorem toNat_after (n : Nat) (t : Timers) :
    (t.after n).delay.toNat = t.delay.toNat - n ∧ (t.after n).sound.toNat = t.sound.toNat - n := by
  induction n generalizing t with
  | zero => exact ⟨rfl, rfl⟩
  | succ n ih =>
    obtain ⟨hdelay, hsound⟩ := ih t.tick
    rw [after, hdelay, hsound, tick, toNat_countDown, toNat_countDown]
    omega

theorem toNat_sound_after (n : Nat) (t : Timers) :
    (t.after n).sound.toNat = t.sound.toNat - n :=
  (t.toNat_after n).2

theorem buzzer_cases (t : Timers) :
    t.sound.toNat = 0 ∧ t.buzzer = .silent ∨ t.sound.toNat = 1 ∧ t.buzzer = .stopped ∨
      2 ≤ t.sound.toNat ∧ t.buzzer = .sounding := by
  by_cases h₀ : t.sound = 0
  · exact .inl ⟨by rw [h₀]; rfl, if_pos h₀⟩
  · by_cases h₁ : t.sound = 1
    · exact .inr (.inl ⟨by rw [h₁]; rfl, by rw [buzzer, if_neg h₀, if_pos h₁]⟩)
    · have hne₀ : t.sound.toNat ≠ 0 := fun h => h₀ (BitVec.eq_of_toNat_eq h)
      have hne₁ : t.sound.toNat ≠ 1 := fun h => h₁ (BitVec.eq_of_toNat_eq h)
      exact .inr (.inr ⟨by omega, by rw [buzzer, if_neg h₀, if_neg h₁]⟩)

theorem buzzers_of_sound_eq (n : Nat) {t u : Timers} (h : t.sound = u.sound) :
    t.buzzers n = u.buzzers n := by
  induction n generalizing t u with
  | zero => rfl
  | succ n ih =>
    have hbuzzer : t.buzzer = u.buzzer := by rw [buzzer, buzzer, h]
    have htick : t.tick.sound = u.tick.sound := congrArg countDown h
    rw [buzzers, buzzers, hbuzzer, ih htick]

/-- Among several ticks, the one that takes the sound timer to zero is the only one that stops the
buzzer. -/
theorem stops_eq (n : Nat) (t : Timers) :
    (t.buzzers n).filter (· == .stopped) =
      if 0 < t.sound.toNat ∧ t.sound.toNat ≤ n then [.stopped] else [] := by
  induction n generalizing t with
  | zero =>
    rw [if_neg (by omega)]
    rfl
  | succ n ih =>
    rw [buzzers, List.filter_cons, ih, tick, toNat_countDown]
    -- the tick that finds the timer at one is the one that stops the buzzer
    rcases t.buzzer_cases with ⟨hs, hb⟩ | ⟨hs, hb⟩ | ⟨hs, hb⟩
    · rw [hb, if_neg (by decide), if_neg (by omega), if_neg (by omega)]
    · rw [hb, if_pos (by decide), if_neg (by omega), if_pos (by omega)]
    · have hc : 0 < t.sound.toNat - 1 ∧ t.sound.toNat - 1 ≤ n ↔
          0 < t.sound.toNat ∧ t.sound.toNat ≤ n + 1 := by omega
      rw [hb, if_neg (by decide)]
      simp only [hc]

end Timers

end ChipEight
