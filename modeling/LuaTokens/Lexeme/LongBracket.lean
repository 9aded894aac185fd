import LuaTokens.Lexeme.Cut

/-! # Long brackets

A long bracket of some level is two brackets with as many equals signs between
them. What it opens ends at the first closing bracket of the same level, and
nothing in between has a meaning of its own; only a line break right behind the
opening bracket is left out of the body.
-/

namespace LuaTokens.LongBracket

def equalsSigns (input : List CodeUnit) : List CodeUnit :=
  input.takeWhile (· == .of '=')

theorem equalsSigns_append (input : List CodeUnit) :
    List.replicate (equalsSigns input).length (.of '=') ++ input.drop (equalsSigns input).length
      = input := by
  induction input with
  | nil => rfl
  | cons u rest ih =>
    unfold equalsSigns at ih ⊢
    by_cases same : u = .of '='
    · simpa [same, List.replicate_succ] using ih
    · simp [same]

def opener (level : Nat) : List CodeUnit :=
  .of '[' :: List.replicate level (.of '=') ++ [.of '[']

def closer (level : Nat) : List CodeUnit :=
  .of ']' :: List.replicate level (.of '=') ++ [.of ']']

/-- The level of the opening bracket that the input begins with. -/
def level? : List CodeUnit → Option Nat
  | [] => none
  | u :: rest =>
      let level := (equalsSigns rest).length
      if u = .of '[' && (rest.drop level).head? = some (.of '[') then some level else none

theorem opener_append_of_level? {input : List CodeUnit} {level : Nat}
    (h : level? input = some level) : opener level ++ input.drop (level + 2) = input := by
  unfold level? at h
  split at h
  · cases h
  next u rest =>
    simp only at h
    split at h
    next opens =>
      cases h
      simp only [Bool.and_eq_true, decide_eq_true_eq] at opens
      have run := equalsSigns_append rest
      obtain ⟨tail, second⟩ := List.head?_eq_some_iff.1 opens.2
      have after : rest.drop ((equalsSigns rest).length + 1) = tail := by
        rw [← List.drop_drop, second, List.drop_one, List.tail_cons]
      rw [second] at run
      rw [List.drop_succ_cons, after, opens.1]
      simpa [opener] using run
    · cases h

/-- The offset of the first place where `pattern` stands. -/
def offsetOf? (pattern : List CodeUnit) : List CodeUnit → Option Nat
  | [] => none
  | u :: rest =>
      if pattern.isPrefixOf (u :: rest) then some 0 else (offsetOf? pattern rest).map (· + 1)

/-- What stands at a place where a long bracket may begin. -/
inductive Reading where
  /-- No opening bracket. -/
  | absent
  /-- An opening bracket without its closing one. -/
  | unclosed
  /-- A whole bracket, with the units of its body. -/
  | closed (cut : Cut (List CodeUnit))
  deriving Repr, DecidableEq

/-- Read the long bracket that the input begins with. -/
def read (input : List CodeUnit) : Reading :=
  match level? input with
  | none => .absent
  | some level =>
      let opened := input.drop (level + 2)
      let start := level + 2 + CodeUnit.breakWidth opened
      let body := input.drop start
      match offsetOf? (closer level) body with
      | none => .unclosed
      | some offset => .closed (.ofWidth (start + offset + (level + 2)) input (body.take offset))

theorem splits_of_read {input : List CodeUnit} {cut : Cut (List CodeUnit)}
    (h : read input = .closed cut) : cut.Splits input := by
  unfold read at h
  split at h
  · cases h
  next level opens =>
    simp only at h
    split at h
    · cases h
    · cases h
      apply Cut.ofWidth_splits (by omega)
      rintro rfl
      simp [level?] at opens

end LuaTokens.LongBracket
