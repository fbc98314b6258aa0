import Monolith.Proofs.Code.Meaning
import Monolith.Proofs.Inlining.Body

/-! # What phis choose from

A phi of a well-formed body lists the predecessors of its block and no other blocks, but
it may list one of them twice, with different values. It has one entry for each
predecessor exactly if it lists no block twice. Then, on every walk, the value that it
takes is that of the one entry for the block that control comes from.
-/

namespace Monolith

variable {f : Function} {code : List Instruction} {b : BlockId}

def listingsOf (code : List Instruction) : List (List BlockId) :=
  (code.filter (·.op.isPhi)).map (·.op.sources)

theorem mem_listingsOf {sources : List BlockId} :
    sources ∈ listingsOf code ↔ ∃ i ∈ code, i.op.isPhi = true ∧ i.op.sources = sources := by
  simp [listingsOf, and_assoc]

theorem listingsOf_append (code more : List Instruction) :
    listingsOf (code ++ more) = listingsOf code ++ listingsOf more := by
  simp [listingsOf]

theorem listingsOf_eq_nil_iff : listingsOf code = [] ↔ ∀ i ∈ code, i.op.isPhi = false := by
  simp [listingsOf]

/-- Renaming blocks renames what is listed. -/
theorem listingsOf_map {change : Instruction → Instruction} (rename : BlockId → BlockId)
    (hphi : ∀ i, (change i).op.isPhi = i.op.isPhi)
    (hsources : ∀ i ∈ code, (change i).op.sources = i.op.sources.map rename) :
    listingsOf (code.map change) = (listingsOf code).map (·.map rename) := by
  have hfilter : (fun i : Instruction => i.op.isPhi) ∘ change = fun i => i.op.isPhi := funext hphi
  rw [listingsOf, listingsOf, List.filter_map, hfilter, List.map_map, List.map_map]
  exact List.map_congr_left fun i hi => hsources i (List.mem_of_mem_filter hi)

theorem listingsOf_mapOperands (change : Operand → Operand) (code : List Instruction) :
    listingsOf (code.map (·.mapOperands change)) = listingsOf code := by
  have hid : (listingsOf code).map (·.map id) = listingsOf code := by simp
  rw [listingsOf_map id (fun i => by simp) (fun i _ => by simp), hid]

namespace Function

def listings (f : Function) (b : BlockId) : List (List BlockId) := listingsOf (f.body b)

/-- Each phi has exactly one entry for each predecessor of its block. -/
def SelectsOne (f : Function) : Prop :=
  ∀ b, ∀ i ∈ f.body b, i.op.isPhi = true → ∀ a ∈ f.predecessors b, i.op.sources.count a = 1

/-- No phi lists a block twice. -/
def ListsOnce (f : Function) : Prop :=
  ∀ block ∈ f.blocks, ∀ i ∈ block.instructions, i.op.sources.Nodup

instance : DecidablePred ListsOnce := fun f =>
  inferInstanceAs (Decidable (∀ block ∈ f.blocks, ∀ i ∈ block.instructions, i.op.sources.Nodup))

def SelectsAt (f : Function) (b : BlockId) : Prop :=
  ∀ sources ∈ f.listings b, ∀ a, b ∈ f.successors a → sources.count a = 1

theorem selectsOne_iff : f.SelectsOne ↔ ∀ b, f.SelectsAt b := by
  refine forall_congr' fun b => ?_
  simp only [SelectsAt, listings, mem_listingsOf, mem_predecessors]
  constructor
  · rintro h _ ⟨i, hi, hphi, rfl⟩
    exact h i hi hphi
  · exact fun h i hi hphi => h _ ⟨i, hi, hphi, rfl⟩

theorem listings_of_le (h : f.blocks.length ≤ b) : f.listings b = [] := by
  have hnone : f.block? b = none := List.getElem?_eq_none h
  rw [listings, body, hnone]
  rfl

theorem selectsAt_of_le (h : f.blocks.length ≤ b) : f.SelectsAt b := by
  rw [SelectsAt, listings_of_le h]
  exact List.forall_mem_nil _

/-- Where only one block gets the new name, it is listed as often as before. -/
theorem count_map_of_inj {rename : BlockId → BlockId} {sources : List BlockId} {a : BlockId}
    (hinj : ∀ b ∈ sources, rename b = rename a → b = a) :
    (sources.map rename).count (rename a) = sources.count a := by
  rw [List.count, List.countP_map]
  refine List.countP_congr fun b hb => ?_
  simp only [Function.comp, beq_iff_eq]
  exact ⟨hinj b hb, congrArg rename⟩

/-- What phis select does not depend on how the predecessors are called. -/
theorem WellShaped.selectsAt_rename {g : Function} (h : f.WellShaped) {b' : BlockId}
    {rename : BlockId → BlockId} (hlistings : g.listings b' = (f.listings b).map (·.map rename))
    (hedges : ∀ a, b' ∈ g.successors a ↔ ∃ old, rename old = a ∧ b ∈ f.successors old)
    (hinj : ∀ a a', b ∈ f.successors a → b ∈ f.successors a' → rename a = rename a' → a = a') :
    g.SelectsAt b' ↔ f.SelectsAt b := by
  have hcount : ∀ sources ∈ f.listings b, ∀ a, b ∈ f.successors a →
      (sources.map rename).count (rename a) = sources.count a := by
    intro sources hsources a ha
    obtain ⟨i, hi, _, rfl⟩ := mem_listingsOf.mp hsources
    exact count_map_of_inj fun old hold => hinj old a (h.sources_precede b i hi old hold) ha
  simp only [SelectsAt, hlistings, hedges, List.forall_mem_map]
  refine forall_congr' fun sources => forall_congr' fun hsources => ?_
  constructor
  · intro hone a ha
    rw [← hcount sources hsources a ha]
    exact hone _ ⟨a, rfl, ha⟩
  · rintro hone _ ⟨a, rfl, ha⟩
    rw [hcount sources hsources a ha]
    exact hone a ha

theorem listsOnce_iff : f.ListsOnce ↔ ∀ b, ∀ i ∈ f.body b, i.op.sources.Nodup := by
  constructor
  · intro h b i hi
    obtain ⟨block, hblock, hi⟩ := block?_of_mem_body hi
    exact h block (List.mem_of_getElem? hblock) i hi
  · intro h block hblock i hi
    obtain ⟨b, hb⟩ := List.getElem?_of_mem hblock
    exact h b i (by rwa [body_eq hb])

/-- In a well-formed body, a phi has one entry for each predecessor if it lists no block twice. -/
theorem WellFormed.selectsOne_iff_listsOnce (h : f.WellFormed) : f.SelectsOne ↔ f.ListsOnce := by
  rw [listsOnce_iff]
  refine forall_congr' fun b => forall_congr' fun i => forall_congr' fun hi => ?_
  cases hop : i.op with
  | phi dest ty incoming =>
      have hsources := h.phi_sources b i hi dest ty incoming hop
      simp only [Operation.isPhi, Operation.sources, forall_const, List.nodup_iff_count_eq_one,
        mem_predecessors, hsources]
  | _ => simp [Operation.sources, Operation.isPhi]

end Function

/-! ## The values that phis take -/

namespace Interpretation

/-- A value that a phi may take when control comes from the given block: that of any of its
entries for it. -/
def MayTake (I : Interpretation) (env : Env I.Value) (source : BlockId) (op : Operation)
    (v : I.Value) : Prop :=
  ∃ dest ty incoming o, op = .phi dest ty incoming ∧ (o, source) ∈ incoming ∧ I.eval env o = some v

/-- Each operand stands for itself. -/
def symbolic : Interpretation where
  Value := Operand
  World := Unit
  constant := .const
  operation _ _ w := (.var 0, w)
  truth _ := false

theorem eval_symbolic (o : Operand) : symbolic.eval (fun x => some (.var x)) o = some o := by
  cases o <;> rfl

variable {I : Interpretation} {env : Env I.Value} {source : BlockId} {dest : ValueId} {ty : Ty}
  {incoming : List (Operand × BlockId)}

theorem exists_phiValue_iff {v : I.Value} :
    (∃ d, I.phiValue env source (.phi dest ty incoming) = some (d, v)) ↔
      ∃ o, incoming.find? (fun entry => entry.2 = source) = some (o, source) ∧
        I.eval env o = some v := by
  cases hfind : incoming.find? (fun entry => entry.2 = source) with
  | none => simp [phiValue, hfind]
  | some entry =>
      obtain ⟨o, b⟩ := entry
      obtain rfl : b = source := by simpa using List.find?_some hfind
      cases heval : I.eval env o <;> simp [phiValue, hfind, heval]

/-- A phi may take the value of any entry for the block that control comes from. -/
theorem mayTake_phi {v : I.Value} : I.MayTake env source (.phi dest ty incoming) v ↔
    ∃ o, (o, source) ∈ incoming ∧ I.eval env o = some v := by
  constructor
  · rintro ⟨_, _, _, o, hop, ho, hv⟩
    obtain ⟨_, _, rfl⟩ := Operation.phi.inj hop
    exact ⟨o, ho, hv⟩
  · rintro ⟨o, ho, hv⟩
    exact ⟨dest, ty, incoming, o, rfl, ho, hv⟩

/-- The first entry for a block decides in all interpretations exactly if the others have
its operand. -/
theorem first_decides_iff (source : BlockId) (dest : ValueId) (ty : Ty)
    (incoming : List (Operand × BlockId)) :
    (∀ (I : Interpretation) (env : Env I.Value) (v : I.Value),
      I.MayTake env source (.phi dest ty incoming) v ↔
        ∃ d, I.phiValue env source (.phi dest ty incoming) = some (d, v)) ↔
    ∀ o o', (o, source) ∈ incoming → (o', source) ∈ incoming → o = o' := by
  simp only [mayTake_phi, exists_phiValue_iff]
  constructor
  · intro h o o' ho ho'
    -- Where operands stand for themselves, the value that is taken tells the entry.
    have hfirst : ∀ p, (p, source) ∈ incoming →
        incoming.find? (fun entry => entry.2 = source) = some (p, source) := by
      intro p hp
      obtain ⟨q, hq, heval⟩ := (h symbolic (fun x => some (.var x)) p).mp ⟨p, hp, eval_symbolic p⟩
      rw [eval_symbolic q] at heval
      rwa [Option.some.inj heval] at hq
    exact (Prod.mk.inj (Option.some.inj ((hfirst o ho).symm.trans (hfirst o' ho')))).1
  · intro h I env v
    constructor
    · rintro ⟨o, ho, hv⟩
      cases hfind : incoming.find? (fun entry => entry.2 = source) with
      | none => simpa using List.find?_eq_none.mp hfind _ ho
      | some entry =>
          obtain ⟨o', b⟩ := entry
          obtain rfl : b = source := by simpa using List.find?_some hfind
          obtain rfl := h o o' ho (List.mem_of_find?_eq_some hfind)
          exact ⟨o, rfl, hv⟩
    · rintro ⟨o, hfind, hv⟩
      exact ⟨o, List.mem_of_find?_eq_some hfind, hv⟩

end Interpretation

namespace Function

/-- On every walk, a phi may take no value but that of its first entry for the block that
control comes from. -/
def Decided (f : Function) : Prop :=
  ∀ b a rest, f.Walk (b :: a :: rest) → ∀ i ∈ f.body b,
    ∀ (I : Interpretation) (env : Env I.Value) (v : I.Value),
      I.MayTake env a i.op v ↔ ∃ dest, I.phiValue env a i.op = some (dest, v)

/-- On every walk, all entries of a phi for the block that control comes from have the same
operand. -/
def EntriesAgree (f : Function) : Prop :=
  ∀ b a rest, f.Walk (b :: a :: rest) → ∀ i ∈ f.body b, ∀ dest ty incoming,
    i.op = .phi dest ty incoming → ∀ o o', (o, a) ∈ incoming → (o', a) ∈ incoming → o = o'

/-- A phi is decided, whatever operands mean, if the entries for one block agree. -/
theorem decided_iff_entriesAgree : f.Decided ↔ f.EntriesAgree := by
  refine forall_congr' fun b => forall_congr' fun a => forall_congr' fun rest =>
    forall_congr' fun _ => forall_congr' fun i => forall_congr' fun _ => ?_
  cases i.op with
  | phi dest ty incoming =>
      rw [Interpretation.first_decides_iff]
      constructor
      · rintro h _ _ _ ⟨⟩
        exact h
      · exact fun h => h dest ty incoming rfl
  | _ => simp [Interpretation.MayTake, Interpretation.phiValue]

/-- A single entry agrees with itself. -/
theorem SelectsOne.entriesAgree (h : f.SelectsOne) : f.EntriesAgree := by
  intro b a rest hwalk i hi dest ty incoming hop o o' ho ho'
  have hedge : b ∈ f.successors a := by
    cases hwalk with
    | step _ hedge => exact (edge_iff.mp hedge).1
  have hcount := h b i hi (by rw [hop]; rfl) a (mem_predecessors.mpr hedge)
  rw [hop] at hcount
  change (incoming.map Prod.snd).count a = 1 at hcount
  rw [List.count, List.countP_map, List.countP_eq_length_filter, List.length_eq_one_iff] at hcount
  obtain ⟨entry, hentry⟩ := hcount
  have hunique : ∀ p, (p, a) ∈ incoming → (p, a) = entry := by
    intro p hp
    rw [← List.mem_singleton, ← hentry]
    exact List.mem_filter.mpr ⟨hp, by simp⟩
  exact (Prod.mk.inj ((hunique o ho).trans (hunique o' ho').symm)).1

end Function

end Monolith
