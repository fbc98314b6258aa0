import Monolith.CommandLine.Run
import Monolith.Proofs.CallGraph.InlinePlan
import Monolith.Proofs.Flattening.ListedNames
import Monolith.Proofs.Json.NestedModules
import Monolith.Proofs.Json.StoredModules

/-! # Loading what was written

A flattened module is written as JSON and loaded again. Its name tables are those that the reader
makes, so it comes back as it was, unless its text is nested deeper than the reader allows.
-/

namespace Monolith.CommandLine

open Json

variable {read : ReadFile} {path text : String} {m n : Module}

theorem loadModule_of_read (h : read path = .ok text) : loadModule read path =
    (Module.read? text).elim (.error (.inputInvalid path)) .ok := by
  unfold loadModule
  rw [h]
  dsimp only [mapError_ok, bind, Except.bind]
  cases Module.read? text <;> rfl

theorem loadModule_eq_ok_iff (h : read path = .ok text) :
    loadModule read path = .ok m ↔ Module.read? text = some m := by
  rw [loadModule_of_read h]
  cases Module.read? text <;> simp

/-- What is read fits in the limit, and its ids and name tables are as the reader makes them. -/
theorem stored_of_read? (h : Module.read? text = some m) :
    m.toJson.nesting ≤ nestingLimit ∧ AreWords m.ids ∧ m.rebuildNames = m := by
  obtain ⟨json, _, hdecode⟩ := Option.bind_eq_some_iff.mp h
  exact Module.stored_of_reads ⟨json, hdecode⟩

theorem stored_of_loadModule (h : loadModule read path = .ok m) :
    m.toJson.nesting ≤ nestingLimit ∧ AreWords m.ids ∧ m.rebuildNames = m := by
  cases hread : read path with
  | error error =>
      unfold loadModule at h
      rw [hread] at h
      cases h
  | ok text => exact stored_of_read? ((loadModule_eq_ok_iff hread).mp h)

theorem read?_pretty_iff (hnames : n.rebuildNames = n) :
    Module.read? n.toJson.pretty = some n ↔
      n.toJson.nesting ≤ nestingLimit ∧ AreWords n.ids := by
  constructor
  · intro h
    obtain ⟨hnesting, hids, _⟩ := stored_of_read? h
    exact ⟨hnesting, hids⟩
  · rintro ⟨hnesting, hids⟩
    exact (Module.read?_write Style.plain_pretty hids hnesting).trans (congrArg some hnames)

/-- A module that is loaded and flattened is verified. The text that is rendered for it is loaded
as the same module just if it is within the limit of the reader, which it is if there are seven
levels to spare in what was loaded first. Ids are words, as they are on a machine. -/
theorem loads_flattened_iff {config : Config} {budget : Nat} {report : Report}
    (hload : loadModule read path = .ok m)
    (hflatten : m.flatten config budget = (.ok report, n)) :
    n.defects = [] ∧
    (∃ text, render n .json = .ok text ∧ ∀ (again : ReadFile) (target : String),
      again target = .ok text →
        (loadModule again target = .ok n ↔
          n.toJson.nesting ≤ nestingLimit ∧ AreWords n.ids)) ∧
    (m.toJson.nesting + 7 ≤ nestingLimit → n.toJson.nesting ≤ nestingLimit) := by
  -- erasing keeps the name tables as they would be made anew, if they were so at first
  obtain ⟨_, _, hnames⟩ := stored_of_loadModule hload
  obtain ⟨_, hverified, _⟩ := Module.exists_of_flatten hflatten
  refine ⟨hverified, ⟨n.toJson.pretty, rfl, fun again target htext => ?_⟩, fun hspare => ?_⟩
  · rw [loadModule_eq_ok_iff htext]
    exact read?_pretty_iff (Module.rebuildNames_of_flatten hnames hflatten)
  · exact Module.nesting_flatten_le (Nat.le_of_add_le_add_right hspare) hflatten

/-- A null pointer behind casts that change nothing. -/
def castChain : Nat → Constant
  | 0 => .null
  | casts + 1 => .cast .bitcast (castChain casts) .ptr

def linkMain : Function where
  name := "main"
  returnType := .ptr
  blocks := [
    { instructions := [{ op := .load 0 .ptr (.const (.global 0)) 8 }]
      terminator := .ret (some (.var 0)) }]
  values := [{ ty := .ptr }]

/-- A function that reads a global, whose initializer is nested three levels for each cast. -/
def link (casts : Nat) : Module :=
  Module.rebuildNames
    { name := "link"
      functions := [some linkMain]
      globals := [
        some { name := "next", valueType := .ptr, initializer := some (castChain casts) }] }

theorem compute_link (casts : Nat) :
    Plan.compute {} (link casts) (CallGraph.ofModule (link casts)) =
      .ok { root := 0, order := [0] } :=
  Plan.compute_of_pairwise rfl rfl rfl (List.pairwise_singleton _ _)

theorem loadModule_text (text path : String) : loadModule (fun _ => .ok text) path =
    (Module.read? text).elim (.error (.inputInvalid path)) .ok :=
  @loadModule_of_read (fun _ => .ok text) path text rfl

theorem loadModule_link {casts : Nat} (hnesting : (link casts).toJson.nesting ≤ nestingLimit)
    (hids : AreWords (link casts).ids) (path : String) :
    loadModule (fun _ => .ok (link casts).toJson.pretty) path = .ok (link casts) := by
  have hnames : (link casts).rebuildNames = link casts := rfl
  rw [loadModule_text, (read?_pretty_iff hnames).mpr ⟨hnesting, hids⟩]
  rfl

/-- With 39 casts there are seven levels to spare, and with 40 there are four. -/
theorem flatten_link :
    ((link 39).toJson.nesting + 7 = nestingLimit ∧ AreWords (link 39).ids ∧
      ((link 39).flatten {} 0).1 = .ok { root := "main", globalsLocalized := ["next"] } ∧
      AreWords ((link 39).flatten {} 0).2.ids) ∧
    (link 40).toJson.nesting + 4 = nestingLimit ∧ AreWords (link 40).ids ∧
      ((link 40).flatten {} 0).1 = .ok { root := "main", globalsLocalized := ["next"] } ∧
      (Module.decode nestingLimit ((link 40).flatten {} 0).2.toJson).isNone = true := by
  unfold Module.flatten Pass.standard Pass.runAll Pass.inlining
  simp only [compute_link]
  decide +kernel

theorem link_loads_again : ∃ report n text,
    loadModule (fun _ => .ok (link 39).toJson.pretty) "in.json" = .ok (link 39) ∧
    (link 39).flatten {} 0 = (.ok report, n) ∧ render n .json = .ok text ∧
    loadModule (fun _ => .ok text) "out.json" = .ok n := by
  obtain ⟨⟨hnesting, hids, hreport, hwords⟩, _⟩ := flatten_link
  have hload := loadModule_link (Nat.le.intro hnesting) hids "in.json"
  have hflatten : (link 39).flatten {} 0 = (_, ((link 39).flatten {} 0).2) := Prod.ext hreport rfl
  obtain ⟨_, ⟨text, htext, hagain⟩, hspare⟩ := loads_flattened_iff hload hflatten
  refine ⟨_, _, text, hload, hflatten, htext, (hagain _ "out.json" rfl).mpr ?_⟩
  exact ⟨hspare hnesting.le, hwords⟩

/-- With one more cast the module is loaded and flattened, but what is written is refused. -/
theorem link_not_loaded_again : ∃ report n text,
    loadModule (fun _ => .ok (link 40).toJson.pretty) "in.json" = .ok (link 40) ∧
    (link 40).flatten {} 0 = (.ok report, n) ∧ render n .json = .ok text ∧
    loadModule (fun _ => .ok text) "out.json" = .error (.inputInvalid "out.json") := by
  obtain ⟨_, hnesting, hids, hreport, hnone⟩ := flatten_link
  have hload := loadModule_link (Nat.le.intro hnesting) hids "in.json"
  refine ⟨_, ((link 40).flatten {} 0).2, _, hload, Prod.ext hreport rfl, rfl, ?_⟩
  rw [loadModule_text, Module.read?, pretty, Json.read?_write Style.plain_pretty,
    Option.bind_some, Option.isNone_iff_eq_none.mp hnone]
  rfl

end Monolith.CommandLine
