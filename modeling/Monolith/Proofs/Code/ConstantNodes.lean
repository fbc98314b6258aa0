import Mathlib.Data.Set.Card
import Mathlib.Tactic.Common
import Monolith.Constant.Basic

/-! # Nodes of constants

A constant is a tree, and a node of it is found at the end of a path from the whole. References
to a function are replaced node by node: where one is met, another constant is put in its place.
If that one does not mention the function, it makes no difference whether it is looked through
as well.
-/

namespace Monolith

/-- Images without a common member are counted one by one. -/
theorem encard_union_image {α β γ : Type} {f : α → γ} {g : β → γ} (hf : f.Injective)
    (hg : g.Injective) (hne : ∀ a b, f a ≠ g b) (s : Set α) (t : Set β) :
    (f '' s ∪ g '' t).encard = s.encard + t.encard := by
  rw [Set.encard_union_eq, hf.encard_image, hg.encard_image]
  rw [Set.disjoint_left]
  rintro _ ⟨a, _, rfl⟩ ⟨b, _, heq⟩
  exact hne a b heq.symm

/-- What is found under the positions of a list is counted entry by entry. -/
theorem encard_positions {α β γ ι : Type} [BEq γ] (get : α → ι → Option β) {b : β}
    (listed : α → List γ) {c : γ} {entries : List α}
    (h : ∀ a ∈ entries, {i | get a i = some b}.encard = ((listed a).count c : ℕ)) :
    {k : Nat × ι | entries[k.1]?.bind (get · k.2) = some b}.encard =
      ((entries.flatMap listed).count c : ℕ) := by
  induction entries with
  | nil => simp
  | cons a entries ih =>
      obtain ⟨hfirst, hrest⟩ := List.forall_mem_cons.mp h
      have hsplit : {k : Nat × ι | (a :: entries)[k.1]?.bind (get · k.2) = some b} =
          (fun i => (0, i)) '' {i | get a i = some b} ∪
            (fun k => (k.1 + 1, k.2)) ''
              {k : Nat × ι | entries[k.1]?.bind (get · k.2) = some b} := by
        ext ⟨index, i⟩
        cases index <;> simp
      rw [hsplit, encard_union_image, hfirst, ih hrest, List.flatMap_cons, List.count_append,
        Nat.cast_add]
      · intro i i' heq
        simpa using heq
      · intro k k' heq
        simpa [Prod.ext_iff] using heq
      · simp

namespace Constant

/-! ## Parts -/

def parts : Constant → List Constant
  | .aggregate _ elements => elements
  | .elementPtr _ base _ => [base]
  | .cast _ value _ => [value]
  | _ => []

/-- Puts other constants, as many, in place of the parts. -/
def withParts : Constant → List Constant → Constant
  | .aggregate ty _, elements => .aggregate ty elements
  | .elementPtr source _ indices, [base] => .elementPtr source base indices
  | .cast op _ ty, [value] => .cast op value ty
  | c, _ => c

/-- The constant by itself, with null in place of its parts. -/
def label (c : Constant) : Constant := c.withParts (c.parts.map fun _ => .null)

/-- What holds of a constant if it holds of its parts holds of every constant. -/
theorem parts_induction {P : Constant → Prop} (h : ∀ c, (∀ d ∈ c.parts, P d) → P c) :
    (c : Constant) → P c
  | .aggregate _ elements => h _ fun d (_ : d ∈ elements) => parts_induction h d
  | .elementPtr _ base _ => h _ (List.forall_mem_singleton.mpr (parts_induction h base))
  | .cast _ value _ => h _ (List.forall_mem_singleton.mpr (parts_induction h value))
  | .int .. | .null | .undef _ | .poison _ | .bytes _ | .global _ | .function _ =>
      h _ (List.forall_mem_nil _)

theorem withParts_parts (c : Constant) : c.withParts c.parts = c := by
  cases c <;> rfl

section

variable {c : Constant} {ds es : List Constant} (h : ds.length = c.parts.length)
include h

theorem parts_withParts : (c.withParts ds).parts = ds := by
  cases c with
  | aggregate => rfl
  | elementPtr | cast =>
      obtain ⟨d, rfl⟩ := List.length_eq_one_iff.mp h
      rfl
  | _ =>
      obtain rfl := List.length_eq_zero_iff.mp h
      rfl

theorem withParts_withParts (h' : es.length = c.parts.length) :
    (c.withParts ds).withParts es = c.withParts es := by
  cases c with
  | aggregate => rfl
  | elementPtr | cast =>
      obtain ⟨d, rfl⟩ := List.length_eq_one_iff.mp h
      obtain ⟨e, rfl⟩ := List.length_eq_one_iff.mp h'
      rfl
  | _ =>
      obtain rfl := List.length_eq_zero_iff.mp h
      rfl

theorem ty_withParts : (c.withParts ds).ty = c.ty := by
  cases c with
  | aggregate => rfl
  | elementPtr | cast =>
      obtain ⟨d, rfl⟩ := List.length_eq_one_iff.mp h
      rfl
  | _ =>
      obtain rfl := List.length_eq_zero_iff.mp h
      rfl

theorem label_withParts : (c.withParts ds).label = c.label := by
  have hnull : (ds.map fun _ => Constant.null) = c.parts.map fun _ => .null := by
    simp [List.map_const', h]
  rw [label, parts_withParts h, hnull, withParts_withParts h (List.length_map _), label]

end

theorem nodes_eq (c : Constant) : c.nodes = c :: c.parts.flatMap nodes := by
  have hall : ∀ cs, nodesAll cs = cs.flatMap nodes := by
    intro cs
    induction cs with
    | nil => rfl
    | cons c cs ih => rw [nodesAll, ih, List.flatMap_cons]
  cases c with
  | aggregate ty elements => exact congrArg _ (hall elements)
  | elementPtr | cast => exact congrArg _ (List.flatMap_singleton ..).symm
  | _ => rfl

theorem functions_eq (c : Constant) :
    c.functions = c.function?.toList ++ c.parts.flatMap functions := by
  rw [functions, nodes_eq, List.filterMap_cons, List.filterMap_flatMap]
  cases c.function? <;> rfl

/-! ## Nodes at the ends of paths -/

/-- The node at the end of the path. -/
def node? : List Nat → Constant → Option Constant
  | [], c => some c
  | index :: path, c => c.parts[index]?.bind (node? path)

theorem mem_nodes_of_node? {path : List Nat} {c d : Constant} (h : c.node? path = some d) :
    d ∈ c.nodes := by
  induction path generalizing c with
  | nil =>
      obtain rfl := Option.some.inj h
      rw [nodes_eq]
      exact List.mem_cons_self
  | cons index path ih =>
      obtain ⟨part, hpart, h⟩ := Option.bind_eq_some_iff.mp h
      rw [nodes_eq]
      exact List.mem_cons_of_mem _
        (List.mem_flatMap.mpr ⟨part, List.mem_of_getElem? hpart, ih h⟩)

theorem eq_of_function? {c : Constant} {id : FunctionId} (h : c.function? = some id) :
    c = .function id := by
  cases c with
  | function other => rw [Option.some.inj h]
  | _ => cases h

variable {id : FunctionId}

theorem functionUses_self : (Constant.function id).functionUses id = 1 := by
  simp [functionUses, functions, nodes, function?]

theorem functionUses_of_ne {c : Constant} (h : c ≠ .function id) :
    c.functionUses id = (c.parts.flatMap functions).count id := by
  have hfirst : c.function?.toList.count id = 0 := by
    rw [List.count_eq_zero, Option.mem_toList]
    exact fun hid => h (eq_of_function? hid)
  rw [functionUses, functions_eq, List.count_append, hfirst, Nat.zero_add]

/-- A function is mentioned as often as paths lead to references to it. -/
theorem encard_node? (c : Constant) :
    {path | c.node? path = some (.function id)}.encard = (c.functionUses id : ℕ) := by
  induction c using parts_induction with
  | h c ih =>
      by_cases hc : c = .function id
      · have hwhole : {path | (Constant.function id).node? path = some (.function id)} = {[]} := by
          ext path
          cases path <;> simp [node?, parts]
        rw [hc, hwhole, functionUses_self, Set.encard_singleton, Nat.cast_one]
      · have hbelow : {path | c.node? path = some (.function id)} =
            (fun k : Nat × List Nat => k.1 :: k.2) ''
              {k | c.parts[k.1]?.bind (fun d => d.node? k.2) = some (.function id)} := by
          ext path
          cases path <;> simp [node?, hc]
        rw [functionUses_of_ne hc, hbelow, Function.Injective.encard_image,
          encard_positions (fun d path => d.node? path) functions ih]
        intro k k' heq
        simpa [Prod.ext_iff] using heq

/-! ## Replacing references -/

section

variable {r c : Constant}

theorem replaceFunction_self : replaceFunction id r (.function id) = r := if_pos rfl

/-- A constant that is no reference to the function is changed in its parts. -/
theorem replaceFunction_of_ne (h : c ≠ .function id) :
    replaceFunction id r c = c.withParts (c.parts.map (replaceFunction id r)) := by
  have hall : ∀ cs, replaceFunctionAll id r cs = cs.map (replaceFunction id r) := by
    intro cs
    induction cs with
    | nil => rfl
    | cons c cs ih => rw [replaceFunctionAll, ih, List.map_cons]
  cases c with
  | aggregate ty elements => exact congrArg (Constant.aggregate ty) (hall elements)
  | function other =>
      have hne : other ≠ id := fun heq => h (heq ▸ rfl)
      exact if_neg hne
  | _ => rfl

theorem not_mem_functions_iff : id ∉ c.functions ↔
    c ≠ .function id ∧ ∀ d ∈ c.parts, id ∉ d.functions := by
  rw [functions_eq, List.mem_append, not_or, Option.mem_toList, List.mem_flatMap]
  refine and_congr ⟨?_, fun h hid => h (eq_of_function? hid)⟩ (by simp)
  rintro h rfl
  exact h rfl

theorem ty_replaceFunction (hty : r.ty = .ptr) : (replaceFunction id r c).ty = c.ty := by
  by_cases hc : c = .function id
  · rw [hc, replaceFunction_self, hty]
    rfl
  · rw [replaceFunction_of_ne hc, ty_withParts (List.length_map _)]

theorem label_replaceFunction (h : c ≠ .function id) :
    (replaceFunction id r c).label = c.label := by
  rw [replaceFunction_of_ne h, label_withParts (List.length_map _)]

/-- No reference is left if none is put in. -/
theorem not_mem_functions_replaceFunction (hfree : id ∉ r.functions) :
    id ∉ (replaceFunction id r c).functions := by
  induction c using parts_induction with
  | h c ih =>
      by_cases hc : c = .function id
      · rwa [hc, replaceFunction_self]
      · have hlength : (c.parts.map (replaceFunction id r)).length = c.parts.length :=
          List.length_map _
        rw [replaceFunction_of_ne hc, not_mem_functions_iff, parts_withParts hlength]
        refine ⟨fun heq => ?_, List.forall_mem_map.mpr ih⟩
        have hparts := parts_withParts hlength
        rw [heq] at hparts
        have hnil : c.parts = [] := List.map_eq_nil_iff.mp hparts.symm
        rw [hnil] at heq
        exact hc (heq ▸ hnil ▸ withParts_parts c).symm

/-- The nodes stay where they are. -/
theorem node?_replaceFunction {path : List Nat} {d : Constant} (h : c.node? path = some d) :
    (replaceFunction id r c).node? path = some (replaceFunction id r d) := by
  induction path generalizing c with
  | nil =>
      obtain rfl := Option.some.inj h
      rfl
  | cons index path ih =>
      obtain ⟨part, hpart, h⟩ := Option.bind_eq_some_iff.mp h
      have hc : c ≠ .function id := by
        rintro rfl
        cases hpart
      rw [replaceFunction_of_ne hc, node?, parts_withParts (List.length_map _),
        List.getElem?_map, hpart]
      exact ih h

end

/-! ## Replacing in place -/

mutual

/-- A walk over the constant, whole before parts: a reference to the function that is met gives
way to `r`, and the walk goes on with the parts of what then stands there. The number is how
often that happens. -/
inductive Edits (id : FunctionId) (r : Constant) : Constant → Constant → Nat → Prop where
  | found {parts : List Constant} {n : Nat} (hparts : EditsAll id r r.parts parts n) :
      Edits id r (.function id) (r.withParts parts) (n + 1)
  | passed {c : Constant} {parts : List Constant} {n : Nat} (hne : c ≠ .function id)
      (hparts : EditsAll id r c.parts parts n) : Edits id r c (c.withParts parts) n

/-- Walks over constants, one after the other. -/
inductive EditsAll (id : FunctionId) (r : Constant) :
    List Constant → List Constant → Nat → Prop where
  | nil : EditsAll id r [] [] 0
  | cons {c d : Constant} {cs ds : List Constant} {n k : Nat} (hfirst : Edits id r c d n)
      (hrest : EditsAll id r cs ds k) : EditsAll id r (c :: cs) (d :: ds) (n + k)

end

section

variable {r c d d' : Constant} {n n' : Nat}

theorem editsAll_of_forall {cs : List Constant} {change : Constant → Constant}
    (h : ∀ c ∈ cs, Edits id r c (change c) (c.functionUses id)) :
    EditsAll id r cs (cs.map change) ((cs.flatMap functions).count id) := by
  induction cs with
  | nil => exact .nil
  | cons c cs ih =>
      obtain ⟨hfirst, hrest⟩ := List.forall_mem_cons.mp h
      rw [List.flatMap_cons, List.count_append]
      exact .cons hfirst (ih hrest)

/-- A walk over a constant without the reference passes everything. -/
theorem edits_of_not_mem (h : id ∉ c.functions) : Edits id r c c (c.functionUses id) := by
  induction c using parts_induction with
  | h c ih =>
      obtain ⟨hne, hparts⟩ := not_mem_functions_iff.mp h
      have hwalk : EditsAll id r c.parts (c.parts.map fun d => d)
          ((c.parts.flatMap functions).count id) :=
        editsAll_of_forall fun d hd => ih d hd (hparts d hd)
      rw [List.map_id', ← functionUses_of_ne hne] at hwalk
      have hpassed := Edits.passed hne hwalk
      rwa [withParts_parts] at hpassed

theorem edits_replaceFunction (hfree : id ∉ r.functions) (c : Constant) :
    Edits id r c (replaceFunction id r c) (c.functionUses id) := by
  induction c using parts_induction with
  | h c ih =>
      by_cases hc : c = .function id
      · obtain ⟨hne, hparts⟩ := not_mem_functions_iff.mp hfree
        have hwalk : EditsAll id r r.parts (r.parts.map fun d => d)
            ((r.parts.flatMap functions).count id) :=
          editsAll_of_forall fun d hd => edits_of_not_mem (hparts d hd)
        have hnone : (r.parts.flatMap functions).count id = 0 := by
          rw [← functionUses_of_ne hne]
          exact List.count_eq_zero.mpr hfree
        have hfound := Edits.found hwalk
        rw [List.map_id', withParts_parts, hnone] at hfound
        rwa [hc, replaceFunction_self, functionUses_self]
      · rw [replaceFunction_of_ne hc, functionUses_of_ne hc]
        exact .passed hc (editsAll_of_forall ih)

end

mutual

theorem Edits.unique {r c d : Constant} {n : Nat} :
    Edits id r c d n → ∀ {d' n'}, Edits id r c d' n' → d = d' ∧ n = n'
  | .found hparts, _, _, h => by
      cases h with
      | found hparts' =>
          obtain ⟨rfl, rfl⟩ := hparts.unique hparts'
          exact ⟨rfl, rfl⟩
      | passed hne _ => exact absurd rfl hne
  | .passed hne hparts, _, _, h => by
      cases h with
      | found _ => exact absurd rfl hne
      | passed _ hparts' =>
          obtain ⟨rfl, rfl⟩ := hparts.unique hparts'
          exact ⟨rfl, rfl⟩

theorem EditsAll.unique {r : Constant} {cs ds : List Constant} {n : Nat} :
    EditsAll id r cs ds n → ∀ {ds' n'}, EditsAll id r cs ds' n' → ds = ds' ∧ n = n'
  | .nil, _, _, h => by
      cases h
      exact ⟨rfl, rfl⟩
  | .cons hfirst hrest, _, _, h => by
      cases h with
      | cons hfirst' hrest' =>
          obtain ⟨rfl, rfl⟩ := hfirst.unique hfirst'
          obtain ⟨rfl, rfl⟩ := hrest.unique hrest'
          exact ⟨rfl, rfl⟩

end

/-- Replacing in place comes to an end, and does what replacing all references at once does. -/
theorem editsAll_iff {r : Constant} {cs ds : List Constant} {n : Nat} (hfree : id ∉ r.functions) :
    EditsAll id r cs ds n ↔
      ds = cs.map (replaceFunction id r) ∧ n = (cs.flatMap functions).count id := by
  have hwalk := editsAll_of_forall fun c (_ : c ∈ cs) => edits_replaceFunction hfree c
  constructor
  · exact fun h => h.unique hwalk
  · rintro ⟨rfl, rfl⟩
    exact hwalk

end Constant

end Monolith
