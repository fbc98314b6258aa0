import Monolith.Proofs.Flattening.ExtendedFunctions
import Monolith.Proofs.Flattening.FailingPasses

/-! # Texts of recorded modules

The text of a function shows the types of its parameters, so a module has a text exactly if all
of them are recorded. No pass forgets a variable: a module that has a text has one after every
pass.
-/

namespace Monolith

/-! ## Computations that need something to be there -/

/-- The computation succeeds if the condition holds, and otherwise addresses an entry that is
not there. -/
def Guarded {α : Type} (condition : Prop) (x : Except Fault α) : Prop :=
  (condition ∧ ∃ a, x = .ok a) ∨ (¬condition ∧ x = .error .outOfBounds)

namespace Guarded

variable {α β : Type} {condition : Prop} {x : Except Fault α}

/-- There is a result if the condition holds. -/
theorem exists_eq_ok_iff (h : Guarded condition x) : (∃ a, x = .ok a) ↔ condition := by
  rcases h with ⟨hcondition, hok⟩ | ⟨hnot, herror⟩
  · exact iff_of_true hok hcondition
  · refine iff_of_false ?_ hnot
    rintro ⟨a, hok⟩
    cases herror.symm.trans hok

theorem eq_error_iff (h : Guarded condition x) {fault : Fault} :
    x = .error fault ↔ fault = .outOfBounds ∧ ¬condition := by
  rcases h with ⟨hcondition, a, hok⟩ | ⟨hnot, herror⟩
  · refine iff_of_false (fun herror => ?_) fun hfault => hfault.2 hcondition
    cases herror.symm.trans hok
  · rw [herror, Except.error.injEq, eq_comm]
    exact (and_iff_left hnot).symm

theorem map (h : Guarded condition x) (f : α → β) :
    Guarded condition (x >>= fun a => .ok (f a)) := by
  rcases h with ⟨hcondition, a, rfl⟩ | ⟨hnot, rfl⟩
  · exact .inl ⟨hcondition, f a, rfl⟩
  · exact .inr ⟨hnot, rfl⟩

/-- Entries succeed if the conditions of all of them hold. -/
theorem mapM {condition : α → Prop} {f : α → Except Fault β} {entries : List α}
    (h : ∀ a ∈ entries, Guarded (condition a) (f a)) :
    Guarded (∀ a ∈ entries, condition a) (entries.mapM f) := by
  induction entries with
  | nil => exact .inl ⟨List.forall_mem_nil _, [], rfl⟩
  | cons a entries ih =>
      obtain ⟨hfirst, hrest⟩ := List.forall_mem_cons.mp h
      rw [List.mapM_cons, List.forall_mem_cons]
      rcases hfirst with ⟨ha, b, hb⟩ | ⟨ha, hb⟩
      · rw [hb, and_iff_right ha]
        exact (ih hrest).map (b :: ·)
      · rw [hb]
        exact .inr ⟨fun hall => ha hall.1, rfl⟩

end Guarded

theorem guarded_entryAt {α : Type} (entries : List α) (index : Nat) :
    Guarded (index < entries.length) (entryAt entries index) := by
  unfold entryAt
  cases hentry : entries[index]? with
  | some entry => exact .inl ⟨(List.getElem?_eq_some_iff.mp hentry).1, entry, rfl⟩
  | none => exact .inr ⟨Nat.not_lt.mpr (List.getElem?_eq_none_iff.mp hentry), rfl⟩

/-! ## Texts -/

/-- The types of the parameters are recorded. -/
def Function.Recorded (f : Function) : Prop := ∀ x ∈ f.parameters, x < f.values.length

theorem Function.guarded_lines (f : Function) (level : Nat) :
    Guarded f.Recorded (f.lines level) := by
  have hparameters : Guarded f.Recorded f.parametersText :=
    (Guarded.mapM fun x _ => (guarded_entryAt f.values x).map _).map _
  unfold lines
  cases f.isDeclaration with
  | true => exact hparameters.map _
  | false => exact hparameters.map _

/-- A function has a text if its parameters are recorded. -/
theorem Function.guarded_text (f : Function) : Guarded f.Recorded (f.text 0) :=
  (f.guarded_lines 0).map _

instance (f : Function) : Decidable f.Recorded :=
  inferInstanceAs (Decidable (∀ x ∈ f.parameters, x < f.values.length))

namespace Module

def Recorded (m : Module) : Prop := ∀ id f, m.function? id = some f → f.Recorded

theorem recorded_iff {m : Module} :
    m.Recorded ↔ ∀ entry ∈ m.functions.entries, entry.2.Recorded :=
  ⟨fun h entry hentry => h entry.1 entry.2 (Arena.mem_entries.mp hentry),
    fun h id f hf => h (id, f) (Arena.mem_entries.mpr hf)⟩

instance (m : Module) : Decidable m.Recorded := decidable_of_iff _ recorded_iff.symm

/-- A module has a text exactly if the types of its parameters are recorded. -/
theorem guarded_text (m : Module) : Guarded m.Recorded m.text := by
  rw [recorded_iff]
  have hlines : Guarded (∀ entry ∈ m.functions.entries, entry.2.Recorded) (m.lines 0) :=
    (Guarded.mapM fun entry _ => (entry.2.guarded_lines 0).map _).map _
  exact hlines.map _

/-- No pass forgets a variable. -/
theorem Recorded.of_extends {m n : Module} (h : m.Recorded)
    (hextends : m.Derives Function.Extends n) : n.Recorded := by
  intro id g hg x hx
  obtain ⟨f, hf, hextends⟩ := hextends id g hg
  rw [hextends.parameters] at hx
  exact Nat.lt_of_lt_of_le (h id f hf x hx) hextends.values.length_le

end Module

end Monolith
