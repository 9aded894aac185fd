import LuaTokens.Proofs.Position.LineBreak
import LuaTokens.Session.Sweep
import Mathlib.Algebra.Group.Nat.Defs

/-! # Scanners

A scanner walks over a buffer by offsets. It moves by counts that nothing bounds, cuts
out ranges and computes in machine words, and each of these steps is a fault where the
offset would pass the end, the range is none of the buffer, or the word overflows. A
scan without fault therefore stays within its buffer and its words.
-/

namespace LuaTokens

/-- The state of scanning. It cannot be out of its buffer, and its line cannot begin
    behind it. -/
structure Scanner where
  units : List CodeUnit
  position : Position
  /-- The comments captured so far. -/
  comments : List Comment
  offset_le : position.offset ≤ units.length
  lineStart_le : position.lineStart ≤ position.offset

namespace Scanner

/-- The units that are still to be scanned. -/
def ahead (s : Scanner) : List CodeUnit :=
  s.units.drop s.position.offset

def remaining (s : Scanner) : Nat :=
  s.units.length - s.position.offset

/-- The unit `distance` units ahead, if there is one. -/
def peekAt (s : Scanner) (distance : Nat) : Option CodeUnit :=
  s.units[s.position.offset + distance]?

def peek (s : Scanner) : Option CodeUnit :=
  s.peekAt 0

def isAt (s : Scanner) (distance : Nat) (c : Char) : Bool :=
  s.peekAt distance = some (.of c)

end Scanner

/-- A scan fails with a diagnostic, or returns. It is `none` where it is a fault. -/
def Scan (α : Type) : Type :=
  Scanner → Option (Except Diagnostic α × Scanner)

namespace Scan

variable {α β σ : Type}

instance : Monad Scan where
  pure a := fun s => some (.ok a, s)
  bind scan next := fun s =>
    match scan s with
    | none => none
    | some (.ok a, after) => next a after
    | some (.error d, after) => some (.error d, after)

def fault : Scan α :=
  fun _ => none

def raise (d : Diagnostic) : Scan α :=
  fun s => some (.error d, s)

/-- Ask the scanner without moving it. -/
def ask (question : Scanner → α) : Scan α :=
  fun s => some (.ok (question s), s)

/-- Move on by `count` units. To pass the end of the buffer is a fault. -/
def advance (count : Nat) : Scan Unit := fun s =>
  if h : s.position.offset + count ≤ s.units.length then
    some (.ok (), { s with
      position := s.position.shift count
      offset_le := h
      lineStart_le := Nat.le_trans s.lineStart_le (Nat.le_add_right _ _) })
  else none

/-- Move on by `count` units or to the end of the buffer. -/
def advanceClamped (count : Nat) : Scan Unit := do
  let left ← ask Scanner.remaining
  advance (min count left)

def startLine : Scan Unit := fun s =>
  some (.ok (), { s with
    position := ⟨s.position.line + 1, s.position.offset, s.position.offset⟩
    lineStart_le := Nat.le_refl _ })

/-- The units from `first` up to `last`. To ask for what is no range of the buffer is a
    fault. -/
def slice (first last : Nat) : Scan (List CodeUnit) := fun s =>
  if first ≤ last ∧ last ≤ s.units.length then
    some (.ok ((s.units.drop first).take (last - first)), s)
  else none

/-- The difference of two words. A negative one is a fault. -/
def subtract (a b : Nat) : Scan Nat :=
  if b ≤ a then pure (a - b) else fault

/-- A word of so many bits. A number that does not fit is a fault. -/
def word (bits value : Nat) : Scan Nat :=
  if value < 2 ^ bits then pure value else fault

/-- Fail on what stands between `start` and the scanner. -/
def fail (chunk : Option String) (reason : Fault) (start : Position) : Scan α := do
  let stop ← ask Scanner.position
  let near ← if reason.atEnd then pure "<eof>"
    else Utf16.lossy <$> slice start.offset stop.offset
  raise ⟨reason, start, stop, near, chunk⟩

/-- Repeat a round as long as it goes on with a new state. A round that goes on without
    having moved the scanner is a fault. -/
def loop (round : σ → Scan (σ ⊕ α)) (state : σ) : Scan α := fun s =>
  match round state s with
  | none => none
  | some (.error d, after) => some (.error d, after)
  | some (.ok (.inr a), after) => some (.ok a, after)
  | some (.ok (.inl next), after) =>
      if _h : after.remaining < s.remaining then loop round next after else none
termination_by s => s.remaining

/-- The scan is no fault. What it returns meets `ok`, and what it fails with `bad`. -/
def Ensures (scan : Scan α) (s : Scanner) (ok : α → Scanner → Prop)
    (bad : Diagnostic → Scanner → Prop) : Prop :=
  match scan s with
  | none => False
  | some (.ok a, after) => ok a after
  | some (.error d, after) => bad d after

/-- The scan is no fault and does not fail. -/
def Returns (scan : Scan α) (s : Scanner) (ok : α → Scanner → Prop) : Prop :=
  scan.Ensures s ok fun _ _ => False

/-- What a round of a loop must achieve that begins with the scanner `s`: keep the invariant
    and move on, or end the loop. -/
abbrev Round (invariant : σ → Scanner → Prop) (ok : α → Scanner → Prop) (s : Scanner) :
    σ ⊕ α → Scanner → Prop
  | .inl next, after => invariant next after ∧ after.remaining < s.remaining
  | .inr a, after => ok a after

section Rules

variable {scan : Scan α} {next : α → Scan β} {s : Scanner} {ok ok' : α → Scanner → Prop}
  {done : β → Scanner → Prop} {bad bad' : Diagnostic → Scanner → Prop}

theorem ensures_pure {a : α} (h : ok a s) : (pure a : Scan α).Ensures s ok bad :=
  h

theorem ensures_raise {d : Diagnostic} (h : bad d s) : (raise d : Scan α).Ensures s ok bad :=
  h

theorem Ensures.mono (h : scan.Ensures s ok bad) (weaker : ∀ a after, ok a after → ok' a after)
    (worse : ∀ d after, bad d after → bad' d after) : scan.Ensures s ok' bad' := by
  unfold Ensures at h ⊢
  cases result : scan s with
  | none =>
      rw [result] at h
      exact h
  | some outcome =>
      obtain ⟨r, after⟩ := outcome
      rw [result] at h
      cases r with
      | ok a => exact weaker a after h
      | error d => exact worse d after h

theorem Returns.mono (h : scan.Returns s ok) (weaker : ∀ a after, ok a after → ok' a after) :
    scan.Ensures s ok' bad :=
  Ensures.mono h weaker fun _ _ => False.elim

theorem Ensures.bind (h : scan.Ensures s ok bad)
    (later : ∀ a after, ok a after → (next a).Ensures after done bad) :
    (scan >>= next).Ensures s done bad := by
  unfold Ensures at h ⊢
  change match (match scan s with
    | none => none
    | some (.ok a, after) => next a after
    | some (.error d, after) => some (.error d, after)) with
    | none => False
    | some (.ok b, after) => done b after
    | some (.error d, after) => bad d after
  cases result : scan s with
  | none =>
      rw [result] at h
      exact h
  | some outcome =>
      obtain ⟨r, after⟩ := outcome
      rw [result] at h
      cases r with
      | ok a => exact later a after h
      | error d => exact h

theorem ensures_bind (h : scan.Ensures s ok bad)
    (worse : ∀ d after, bad d after → bad' d after)
    (later : ∀ a after, ok a after → (next a).Ensures after done bad') :
    (scan >>= next).Ensures s done bad' :=
  Ensures.bind (h.mono (fun _ _ => id) worse) later

theorem Returns.bind (h : scan.Returns s ok)
    (later : ∀ a after, ok a after → (next a).Ensures after done bad) :
    (scan >>= next).Ensures s done bad :=
  Ensures.bind (h.mono fun _ _ => id) later

theorem ensures_ask_bind {question : Scanner → α}
    (h : (next (question s)).Ensures s done bad) : (ask question >>= next).Ensures s done bad :=
  h

theorem Ensures.map {f : α → β} (h : scan.Ensures s (fun a after => done (f a) after) bad) :
    (f <$> scan).Ensures s done bad :=
  h.bind fun _ _ => id

/-- An invariant of the rounds holds up to the end of a loop. -/
theorem ensures_loop {round : σ → Scan (σ ⊕ α)} (invariant : σ → Scanner → Prop)
    (step : ∀ state s, invariant state s → (round state).Ensures s (Round invariant ok s) bad)
    {state : σ} (h : invariant state s) : (loop round state).Ensures s ok bad := by
  induction bound : s.remaining using Nat.strongRecOn generalizing state s with
  | ind n ih =>
      have now := step state s h
      unfold Ensures at now ⊢
      rw [loop]
      cases result : round state s with
      | none =>
          rw [result] at now
          exact now
      | some outcome =>
          obtain ⟨r, after⟩ := outcome
          rw [result] at now
          match r with
          | .error d => exact now
          | .ok (.inr a) => exact now
          | .ok (.inl next) =>
              obtain ⟨still, moved⟩ := now
              simp only [dif_pos moved]
              exact ih after.remaining (bound ▸ moved) still rfl

end Rules

end Scan

end LuaTokens
