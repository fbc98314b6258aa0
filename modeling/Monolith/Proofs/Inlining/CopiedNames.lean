import Monolith.Inlining.Call
import Monolith.Proofs.Failures
import Monolith.Proofs.Verify.WellFormed

/-! # The names of a copied body

In the copy of a body a parameter stands for an argument, and every other variable
has a new name.
-/

namespace Monolith

variable {x : ValueId} {a : Operand}

/-- New names, from `first` on, for the variables of a body that are no parameters. -/
def Function.freshNames (f : Function) (first : ValueId) : List (ValueId × Operand) :=
  f.innerValues.zipIdx.map fun ((_, id), offset) => (id, .var (first + offset))

/-- How the variables and blocks of the callee are named in the caller. -/
def CallSite.renaming (site : CallSite) (caller : Function) : Renaming where
  values := (site.callee.parameters.zip site.args).reverse ++
    site.callee.freshNames caller.values.length
  firstBlock := caller.blocks.length + 1
  blockCount := site.callee.blocks.length

/-- Inlining splits the block of the call, appends the copies, hoists their allocas, enters
them at the split and binds the result. -/
theorem Function.inlineBody_steps {f g : Function} {site : CallSite} {b : BlockId} {index : Nat}
    (h : f.inlineBody site b index = .ok g) : ∃ split hoisted joined,
      f.splitAt b index (site.callee.name ++ ".exit") = .ok split ∧
      hoistAllocas { split with
        values := split.values ++ site.callee.innerValues.map Prod.fst
        blocks := split.blocks ++ site.callee.copyBlocks (site.renaming f) f.blocks.length }
          ((site.renaming f).block site.callee.entry) = .ok hoisted ∧
      hoisted.setTerminator b (.jump ((site.renaming f).block site.callee.entry)) = .ok joined ∧
      g = joined.bindResult site f.blocks.length (site.callee.returns (site.renaming f)) := by
  obtain ⟨split, hsplit, h⟩ := bind_eq_ok.mp h
  obtain ⟨hoisted, hhoisted, h⟩ := bind_eq_ok.mp h
  obtain ⟨joined, hjoined, h⟩ := bind_eq_ok.mp h
  exact ⟨split, hoisted, joined, hsplit, hhoisted, hjoined, (Except.ok.inj h).symm⟩

/-- The copies define the variables under their new names. -/
theorem Renaming.defsOf_copy (names : Renaming) (instructions : List Instruction) :
    defsOf (instructions.map names.instruction) = (defsOf instructions).map names.dest := by
  have hdest : ∀ i : Instruction, (names.instruction i).op.dest? = i.op.dest?.map names.dest := by
    simp [Renaming.instruction]
  rw [defsOf, defsOf, List.filterMap_map, List.map_filterMap]
  exact congrArg (List.filterMap · instructions) (funext hdest)

/-- The renaming of a body that is called with the given arguments, `first` being the
first of the new names. -/
structure Renaming.Copies (names : Renaming) (f : Function) (args : List Operand)
    (first : ValueId) : Prop where
  values : names.values = (f.parameters.zip args).reverse ++ f.freshNames first
  nodup : f.parameters.Nodup
  arity : args.length = f.parameters.length

theorem Function.freshNames_keys_nodup (f : Function) (first : ValueId) :
    ((f.freshNames first).map Prod.fst).Nodup := by
  have hkeys : (f.freshNames first).map Prod.fst = f.innerValues.map Prod.snd := by
    rw [freshNames, List.map_map]
    nth_rewrite 2 [← List.zipIdx_map_fst 0 f.innerValues]
    rw [List.map_map]
    rfl
  rw [hkeys, innerValues]
  refine List.Nodup.sublist (List.filter_sublist.map Prod.snd) ?_
  rw [List.zipIdx_map_snd]
  exact List.nodup_range'

/-- A variable that is no parameter gets the next new name. -/
theorem Function.lookup_freshNames {f : Function} {first : ValueId} :
    (f.freshNames first).lookup x = some a ↔
      ∃ info offset, f.innerValues[offset]? = some (info, x) ∧ a = .var (first + offset) := by
  rw [lookup_eq_some_iff_mem (f.freshNames_keys_nodup first), freshNames, List.mem_map]
  simp only [Prod.exists, Prod.mk.injEq, List.mem_zipIdx_iff_getElem?]
  constructor
  · rintro ⟨info, id, offset, hget, rfl, rfl⟩
    exact ⟨info, offset, hget, rfl⟩
  · rintro ⟨info, offset, hget, rfl⟩
    exact ⟨info, x, offset, hget, rfl, rfl⟩

namespace Renaming.Copies

variable {names : Renaming} {f : Function} {args : List Operand} {first : ValueId}
  (hnames : names.Copies f args first)

include hnames

theorem zip_keys : (f.parameters.zip args).map Prod.fst = f.parameters :=
  List.map_fst_zip (Nat.le_of_eq hnames.arity.symm)

theorem lookup_parameters :
    (f.parameters.zip args).reverse.lookup x = some a ↔ (x, a) ∈ f.parameters.zip args := by
  rw [lookup_eq_some_iff_mem, List.mem_reverse]
  rw [List.map_reverse, List.nodup_reverse, hnames.zip_keys]
  exact hnames.nodup

/-- A parameter stands for the argument that is passed for it. -/
theorem operand_of_zip (h : (x, a) ∈ f.parameters.zip args) : names.operand (.var x) = a := by
  simp [Renaming.operand, hnames.values, List.lookup_append, hnames.lookup_parameters.mpr h]

theorem exists_zip (hx : x ∈ f.parameters) : ∃ a, (x, a) ∈ f.parameters.zip args := by
  rw [← hnames.zip_keys] at hx
  obtain ⟨⟨_, a⟩, ha, rfl⟩ := List.mem_map.mp hx
  exact ⟨a, ha⟩

/-- A parameter stands for an argument. -/
theorem operand_mem_args (hx : x ∈ f.parameters) : names.operand (.var x) ∈ args := by
  obtain ⟨a, ha⟩ := hnames.exists_zip hx
  rw [hnames.operand_of_zip ha]
  exact (List.of_mem_zip ha).2

/-- A recorded variable that is no parameter gets a new name. -/
theorem lookup_inner (hx : x ∉ f.parameters) (hlt : x < f.values.length) :
    ∃ info offset, f.innerValues[offset]? = some (info, x) ∧
      names.values.lookup x = some (.var (first + offset)) := by
  have hmem : (f.values[x], x) ∈ f.innerValues := by
    rw [Function.innerValues, List.mem_filter, List.mem_zipIdx_iff_getElem?]
    exact ⟨List.getElem?_eq_getElem hlt, by simpa using hx⟩
  obtain ⟨offset, hoffset⟩ := List.getElem?_of_mem hmem
  refine ⟨_, offset, hoffset, ?_⟩
  have hnone : (f.parameters.zip args).reverse.lookup x = none := by
    by_contra hsome
    obtain ⟨a, ha⟩ := Option.ne_none_iff_exists'.mp hsome
    exact hx (List.of_mem_zip (hnames.lookup_parameters.mp ha)).1
  rw [hnames.values, List.lookup_append, hnone]
  exact Function.lookup_freshNames.mpr ⟨_, offset, hoffset, rfl⟩

section

variable (hx : x ∉ f.parameters) (hlt : x < f.values.length)

include hx hlt

theorem operand_inner : names.operand (.var x) = .var (names.dest x) := by
  obtain ⟨_, offset, _, hlookup⟩ := hnames.lookup_inner hx hlt
  simp [Renaming.operand, Renaming.dest, hlookup]

theorem le_dest : first ≤ names.dest x := by
  obtain ⟨_, offset, _, hlookup⟩ := hnames.lookup_inner hx hlt
  simp [Renaming.dest, hlookup]

theorem dest_lt : names.dest x < first + f.innerValues.length := by
  obtain ⟨_, offset, hget, hlookup⟩ := hnames.lookup_inner hx hlt
  simp only [Renaming.dest, hlookup]
  exact Nat.add_lt_add_left (List.getElem?_eq_some_iff.mp hget).1 first

/-- No two variables get one name. -/
theorem dest_inj {y : ValueId} (hy : y ∉ f.parameters) (hlt' : y < f.values.length)
    (heq : names.dest x = names.dest y) : x = y := by
  obtain ⟨_, offset, hget, hlookup⟩ := hnames.lookup_inner hx hlt
  obtain ⟨_, offset', hget', hlookup'⟩ := hnames.lookup_inner hy hlt'
  simp only [Renaming.dest, hlookup, hlookup'] at heq
  obtain rfl := Nat.add_left_cancel heq
  exact (Prod.mk.inj (Option.some.inj (hget.symm.trans hget'))).2

end

end Renaming.Copies

end Monolith
