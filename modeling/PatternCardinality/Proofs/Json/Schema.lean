import PatternCardinality.Json.Schema
import PatternCardinality.Proofs.Ordered.Map

/-!
# Lists and tables from JSON

What is read from a list or a table is read from each of its members, and a table keeps its keys.
-/

namespace PatternCardinality.Json

variable {β γ : Type}

theorem mapM_eq_some {f : β → Option γ} {g : β → γ} {l : List β}
    (h : ∀ b ∈ l, f b = some (g b)) : l.mapM f = some (l.map g) := by
  induction l with
  | nil => rfl
  | cons b l ih =>
    obtain ⟨hb, hl⟩ := List.forall_mem_cons.mp h
    simp [List.mapM_cons, hb, ih hl]

theorem asList?_map {write : β → Json} {read : Json → Option γ} {g : β → γ} {l : List β}
    (h : ∀ b ∈ l, read (write b) = some (g b)) :
    asList? read (.array (l.map write)) = some (l.map g) := by
  rw [asList?, List.mapM_map]
  exact mapM_eq_some h

theorem asTable?_map {write : β → Json} {read : Json → Option γ} {g : β → γ}
    {m : OrderedMap String β} (h : ∀ e ∈ m.entries, read (write e.2) = some (g e.2)) :
    asTable? read (.object (m.entries.map (fun e => (e.1, write e.2)))) =
      some (m.mapValues (fun _ => g)) := by
  rw [asTable?, List.mapM_map, mapM_eq_some (g := fun e => (e.1, g e.2))]
  · exact congrArg some (OrderedMap.ofList_map_entries g m)
  · intro e he
    simp [h e he]

end PatternCardinality.Json
