import Mathlib.Data.List.Flatten
import Mathlib.Data.List.Nodup
import Mathlib.Logic.Relation
import Mathlib.Tactic.Common
import Monolith.Worklist

/-! # What exploration visits

Each step of an exploration takes an entry from the worklist, and an entry is put there once for
each time that it follows a visited one. So exploration ends by itself, before the steps that it
is given are used up. It has then visited what is reached from the start, each entry once.
-/

namespace Monolith

variable {nodes : List Nat} {next : Nat → List Nat}

/-- The second is reached from the first. -/
def Connects (next : Nat → List Nat) : Nat → Nat → Prop :=
  Relation.ReflTransGen fun a b => b ∈ next a

/-- The worklist is worked off, and all that has been visited then is the result. -/
inductive Explores (next : Nat → List Nat) : List Nat → List Nat → List Nat → Prop where
  | done {visited : List Nat} : Explores next [] visited visited
  | skip {current : Nat} {pending visited result : List Nat} (hvisited : current ∈ visited)
      (hrest : Explores next pending visited result) :
      Explores next (current :: pending) visited result
  | visit {current : Nat} {pending visited result : List Nat} (hnew : current ∉ visited)
      (hrest : Explores next ((next current).reverse ++ pending) (current :: visited) result) :
      Explores next (current :: pending) visited result

namespace Explores

variable {pending visited result : List Nat}

theorem nodup (h : Explores next pending visited result) (hvisited : visited.Nodup) :
    result.Nodup := by
  induction h with
  | done => exact hvisited
  | skip _ _ ih => exact ih hvisited
  | visit hnew _ ih => exact ih (List.nodup_cons.mpr ⟨hnew, hvisited⟩)

theorem connects_of_mem (h : Explores next pending visited result) {y : Nat} (hy : y ∈ result) :
    y ∈ visited ∨ ∃ x ∈ pending, Connects next x y := by
  induction h with
  | done => exact .inl hy
  | skip _ _ ih =>
      rcases ih hy with hy | ⟨x, hx, hy⟩
      · exact .inl hy
      · exact .inr ⟨x, List.mem_cons_of_mem _ hx, hy⟩
  | @visit current _ _ _ _ _ ih =>
      rcases ih hy with hy | ⟨x, hx, hy⟩
      · rcases List.mem_cons.mp hy with rfl | hy
        · exact .inr ⟨y, List.mem_cons_self, .refl⟩
        · exact .inl hy
      · rcases List.mem_append.mp hx with hx | hx
        · exact .inr ⟨current, List.mem_cons_self, .head (List.mem_reverse.mp hx) hy⟩
        · exact .inr ⟨x, List.mem_cons_of_mem _ hx, hy⟩

/-- In the end all that was visited or pending is visited, and all that follows it. -/
theorem mem_of_connects (h : Explores next pending visited result)
    (hclosed : ∀ x ∈ visited, ∀ y ∈ next x, y ∈ visited ∨ y ∈ pending) {x y : Nat}
    (hx : x ∈ visited ∨ x ∈ pending) (hconnects : Connects next x y) : y ∈ result := by
  induction h with
  | done =>
      induction hconnects with
      | refl => exact hx.resolve_right List.not_mem_nil
      | tail _ hstep ih => exact (hclosed _ ih _ hstep).resolve_right List.not_mem_nil
  | @skip current pending visited _ hvisited _ ih =>
      have hpassed : ∀ {z}, z ∈ visited ∨ z ∈ current :: pending → z ∈ visited ∨ z ∈ pending := by
        rintro z (hz | hz)
        · exact .inl hz
        · rcases List.mem_cons.mp hz with rfl | hz
          · exact .inl hvisited
          · exact .inr hz
      exact ih (fun x hx y hy => hpassed (hclosed x hx y hy)) (hpassed hx)
  | @visit current pending visited _ _ _ ih =>
      have hpassed : ∀ {z}, z ∈ visited ∨ z ∈ current :: pending →
          z ∈ current :: visited ∨ z ∈ (next current).reverse ++ pending := by
        rintro z (hz | hz)
        · exact .inl (List.mem_cons_of_mem _ hz)
        · rcases List.mem_cons.mp hz with rfl | hz
          · exact .inl List.mem_cons_self
          · exact .inr (List.mem_append_right _ hz)
      refine ih (fun x hx y hy => ?_) (hpassed hx)
      -- what follows the entry just visited is pending now
      rcases List.mem_cons.mp hx with rfl | hx
      · exact .inr (List.mem_append_left _ (List.mem_reverse.mpr hy))
      · exact hpassed (hclosed x hx y hy)

end Explores

/-! ## The number of steps -/

def unvisited (nodes : List Nat) (next : Nat → List Nat) (visited : List Nat) : List Nat :=
  (nodes.filter (· ∉ visited)).flatMap next

theorem length_unvisited (nodes : List Nat) {visited : List Nat} {current : Nat}
    (hnot : current ∉ visited) (hnode : next current ≠ [] → current ∈ nodes) :
    (next current).length + (unvisited nodes next (current :: visited)).length ≤
      (unvisited nodes next visited).length := by
  have hfilter : nodes.filter (· ∉ current :: visited) =
      (nodes.filter (· ∉ visited)).filter (· ≠ current) := by
    rw [List.filter_filter]
    exact List.filter_congr fun x _ => by simp
  rw [unvisited, unvisited, hfilter]
  by_cases hmem : current ∈ nodes
  · have hcurrent : current ∈ nodes.filter (· ∉ visited) :=
      List.mem_filter.mpr ⟨hmem, decide_eq_true hnot⟩
    obtain ⟨front, back, heq⟩ := List.append_of_mem hcurrent
    have hsub : ((front ++ current :: back).filter (· ≠ current)).Sublist (front ++ back) := by
      rw [List.filter_append, List.filter_cons_of_neg (by simp)]
      exact List.filter_sublist.append List.filter_sublist
    have hle := (hsub.flatMap next).length_le
    rw [heq]
    simp only [List.flatMap_append, List.flatMap_cons, List.length_append] at hle ⊢
    omega
  · have hnone : next current = [] := by
      by_contra hne
      exact hmem (hnode hne)
    rw [hnone, List.length_nil, Nat.zero_add]
    exact (List.filter_sublist.flatMap next).length_le

/-- All that the entries lead to, and that something follows, is listed. -/
def Lists (nodes : List Nat) (next : Nat → List Nat) (entries : List Nat) : Prop :=
  ∀ x ∈ entries, ∀ y, Connects next x y → next y ≠ [] → y ∈ nodes

theorem lists_of_forall (h : ∀ x, next x ≠ [] → x ∈ nodes) (entries : List Nat) :
    Lists nodes next entries := fun _ _ y _ => h y

/-- With a step for each entry that is pending or still to come, the worklist is worked off. -/
theorem explores_exploreFrom {steps : Nat} {pending visited : List Nat}
    (hlists : Lists nodes next pending)
    (hsteps : pending.length + (unvisited nodes next visited).length ≤ steps) :
    Explores next pending visited (exploreFrom next steps pending visited) := by
  induction steps generalizing pending visited with
  | zero =>
      obtain rfl : pending = [] := List.length_eq_zero_iff.mp (by omega)
      exact .done
  | succ steps ih =>
      cases pending with
      | nil => exact .done
      | cons current pending =>
          obtain ⟨hcurrent, hpending⟩ := List.forall_mem_cons.mp hlists
          rw [List.length_cons] at hsteps
          rw [exploreFrom]
          split
          next hvisited =>
            exact .skip (List.contains_iff_mem.mp hvisited) (ih hpending (by omega))
          next hvisited =>
            have hnew : current ∉ visited := fun h => hvisited (List.contains_iff_mem.mpr h)
            have hless := length_unvisited nodes hnew (hcurrent current .refl)
            refine .visit hnew (ih (fun x hx y hy => ?_) ?_)
            · rcases List.mem_append.mp hx with hx | hx
              · exact hcurrent y (.head (List.mem_reverse.mp hx) hy)
              · exact hpending x hx y hy
            · rw [List.length_append, List.length_reverse]
              omega

section

variable {start : List Nat} (hlists : Lists nodes next start)

include hlists

/-- Exploration from the start comes to its end. -/
theorem explores_explore :
    Explores next start.reverse [] (explore nodes next start).reverse := by
  have hunvisited : unvisited nodes next [] = nodes.flatMap next := by
    rw [unvisited, List.filter_eq_self.mpr fun _ _ => decide_eq_true List.not_mem_nil]
  have hreversed : Lists nodes next start.reverse := fun x hx => hlists x (List.mem_reverse.mp hx)
  rw [explore, List.reverse_reverse]
  refine explores_exploreFrom hreversed (Nat.le_of_eq ?_)
  rw [hunvisited, List.length_reverse]

/-- Exploration visits what is reached from the start. -/
theorem mem_explore_iff {y : Nat} :
    y ∈ explore nodes next start ↔ ∃ x ∈ start, Connects next x y := by
  have hexplores := explores_explore hlists
  constructor
  · intro h
    rcases hexplores.connects_of_mem (List.mem_reverse.mpr h) with h | ⟨x, hx, hconnects⟩
    · cases h
    · exact ⟨x, List.mem_reverse.mp hx, hconnects⟩
  · rintro ⟨x, hx, hconnects⟩
    have hmem := hexplores.mem_of_connects (List.forall_mem_nil _)
      (.inr (List.mem_reverse.mpr hx)) hconnects
    exact List.mem_reverse.mp hmem

theorem explore_nodup : (explore nodes next start).Nodup := by
  have hnodup := (explores_explore hlists).nodup List.nodup_nil
  rwa [List.nodup_reverse] at hnodup

end

end Monolith
