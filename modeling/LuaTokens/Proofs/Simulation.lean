import LuaTokens.Proofs.Conversation

/-! # Sessions side by side

Two sessions that agree at every pull agree for as long as they are pulled. So what is
common to two ways of reading a source is shown for one sweep and holds of all of them.
-/

namespace LuaTokens.Session

/-- Sessions so related deliver the same items, but for `f`, and stay related when they are
    pulled and when their comments are taken out. -/
structure Simulation (f : Item → Item) (Related : Session → Session → Prop) : Prop where
  item {s t : Session} : Related s t → t.pull.1 = s.pull.1.map f
  after {s t : Session} : Related s t → Related s.pull.2 t.pull.2
  taking {s t : Session} : Related s t → Related s.takeComments.2 t.takeComments.2

namespace Simulation

variable {f : Item → Item} {Related : Session → Session → Prop} {s t : Session}

theorem take (simulation : Simulation f Related) (count : Nat) (h : Related s t) :
    (take count t).1 = (take count s).1.map f ∧ Related (take count s).2 (take count t).2 := by
  induction count generalizing s t with
  | zero => exact ⟨rfl, h⟩
  | succ count ih =>
      have item := simulation.item h
      have after := simulation.after h
      rw [take_succ, take_succ, item]
      cases s.pull.1 with
      | none => exact ⟨rfl, after⟩
      | some delivered =>
          obtain ⟨items, last⟩ := ih after
          exact ⟨congrArg (f delivered :: ·) items, last⟩

theorem drain (simulation : Simulation f Related) (h : Related s t) :
    t.drain.1 = s.drain.1.map f ∧ Related s.drain.2 t.drain.2 := by
  fun_induction Session.drain s generalizing t with
  | case1 s finished =>
      have item := simulation.item h
      rw [drain_cases t, item, finished]
      exact ⟨rfl, simulation.after h⟩
  | case2 s delivered pulled items last same ih =>
      have item := simulation.item h
      obtain ⟨later, related⟩ := ih (simulation.after h)
      rw [same] at later related
      rw [drain_cases t, item, pulled]
      exact ⟨congrArg (f delivered :: ·) later, related⟩

theorem answer (simulation : Simulation f Related) (call : Call) (h : Related s t) :
    (t.answer call).1.delivered = (s.answer call).1.delivered.map f
      ∧ Related (s.answer call).2 (t.answer call).2 := by
  have item := simulation.item h
  cases call with
  | next =>
      refine ⟨?_, simulation.after h⟩
      rw [Session.answer, Session.answer, Answer.delivered, Answer.delivered, item]
      exact Option.toList_map
  | nextToken =>
      refine ⟨?_, simulation.after h⟩
      rw [Session.answer, Session.answer, Answer.delivered_ofPull, Answer.delivered_ofPull, item]
      exact Option.toList_map
  | take count => exact simulation.take count h
  | drain => exact simulation.drain h
  | takeComments => exact ⟨rfl, simulation.taking h⟩
  | _ => exact ⟨rfl, h⟩

/-- Two conversations with the same calls deliver the same items, but for `f`. -/
theorem converse (simulation : Simulation f Related) (calls : List Call) (h : Related s t) :
    (t.converse calls).delivered = (s.converse calls).delivered.map f
      ∧ Related (s.converse calls).last (t.converse calls).last := by
  induction calls generalizing s t with
  | nil => exact ⟨rfl, h⟩
  | cons call calls ih =>
      obtain ⟨now, after⟩ := simulation.answer call h
      obtain ⟨later, last⟩ := ih after
      refine ⟨?_, last⟩
      simp only [Conversation.delivered] at later
      simp only [Conversation.delivered, Session.converse, List.flatMap_cons, List.map_append, now, later]

end Simulation

end LuaTokens.Session
