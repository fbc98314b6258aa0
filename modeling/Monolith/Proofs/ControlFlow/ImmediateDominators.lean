import Monolith.Proofs.ControlFlow.Dominance

/-! # Immediate dominators

The dominator tree of any function with an entry is found, whatever its blocks pass
control to. It answers which blocks are reached and which dominate which, and its links
lead from every reached block but the entry to the closest strict dominator.
-/

namespace Monolith.Function

/-- The block is a strict dominator of the other, and all strict dominators dominate it. -/
structure ClosestDominator (f : Function) (d b : BlockId) : Prop where
  dominates : f.Dominates d b
  ne : d ≠ b
  closest : ∀ a, f.Dominates a b → a ≠ b → f.Dominates a d

section

variable {f : Function} {a b d : BlockId}

theorem Dominates.reached (h : f.Dominates a b) : f.Reached a := by
  obtain ⟨⟨rest, hwalk⟩, hall⟩ := h
  exact Walk.reached hwalk a (hall rest hwalk)

theorem Dominates.antisymm (hab : f.Dominates a b) (hba : f.Dominates b a) : a = b := by
  by_contra hne
  obtain ⟨⟨rest, hwalk⟩, hpasses⟩ := hab
  -- before the first visit of `b`, the walk has to visit `a`, and before that `b`
  obtain ⟨_, first, _, hnot, hfirst⟩ := hwalk.first_visit List.mem_cons_self
  have ha := (List.mem_cons.mp (hpasses first hfirst)).resolve_left hne
  obtain ⟨front, back, rfl⟩ := List.append_of_mem ha
  have hwalk' : f.Walk (a :: back) := by
    rw [← List.cons_append] at hfirst
    exact hfirst.suffix
  have hb := (List.mem_cons.mp (hba.2 back hwalk')).resolve_left (Ne.symm hne)
  exact hnot (List.mem_append_right _ (List.mem_cons_of_mem _ hb))

theorem ClosestDominator.unique {d' : BlockId} (h : f.ClosestDominator d b)
    (h' : f.ClosestDominator d' b) : d = d' :=
  (h'.closest d h.dominates h.ne).antisymm (h.closest d' h'.dominates h'.ne)

variable (hentry : f.entry < f.blocks.length)

include hentry

theorem dominatorTree?_eq : f.dominatorTree? = some f.dominatorTree := by
  obtain ⟨links, htree, _⟩ := dominatorTree?_settled hentry
  rw [dominatorTree, htree]
  rfl

theorem dominatorTree_order : f.dominatorTree.order = f.reversePostorder := by
  obtain ⟨links, htree, _⟩ := dominatorTree?_settled hentry
  rw [dominatorTree, htree]
  rfl

theorem dominatorTree_settled :
    Links.Settled (f.predecessorPositions f.reversePostorder) f.dominatorTree.links := by
  obtain ⟨links, htree, hsettled⟩ := dominatorTree?_settled hentry
  rw [dominatorTree, htree]
  exact hsettled

/-- The position of a block in the tree. -/
theorem position?_eq_some_iff {p : Nat} :
    f.dominatorTree.position? b = some p ↔ f.reversePostorder[p]? = some b := by
  rw [DominatorTree.position?, dominatorTree_order hentry,
    idxOf?_eq_some_iff_getElem? (reversePostorder_nodup hentry)]

theorem exists_position (hreached : f.Reached b) : ∃ p : Nat, f.reversePostorder[p]? = some b :=
  List.getElem?_of_mem ((mem_reversePostorder_iff hentry).mpr hreached)

theorem position_eq_zero_iff {p : Nat} (hp : f.reversePostorder[p]? = some b) :
    p = 0 ↔ b = f.entry := by
  have hzero := reversePostorder_zero hentry
  constructor
  · rintro rfl
    exact Option.some.inj (hp.symm.trans hzero)
  · rintro rfl
    have hnodup := reversePostorder_nodup hentry
    rw [← idxOf?_eq_some_iff_getElem? hnodup] at hp hzero
    exact Option.some.inj (hp.symm.trans hzero)

/-- Dominators stand on the chain of links. -/
theorem onChain_iff_dominates {p q : Nat} (hb : f.reversePostorder[p]? = some b)
    (ha : f.reversePostorder[q]? = some a) :
    Links.OnChain f.dominatorTree.links.up? p q ↔ f.Dominates a b := by
  have hlt : p < (f.predecessorPositions f.reversePostorder).length := by
    simpa [predecessorPositions] using (List.getElem?_eq_some_iff.mp hb).1
  rw [(dominatorTree_settled hentry).onChain_iff (predecessorPositions_ordered hentry) hlt,
    unavoidable_iff_dominates hentry hb ha]

/-- Every reached block but the entry is linked to its closest strict dominator. -/
theorem exists_immediateDominator (hreached : f.Reached b) (hne : b ≠ f.entry) :
    ∃ d, f.dominatorTree.immediateDominator? b = some d ∧ f.ClosestDominator d b := by
  have hsettled := dominatorTree_settled hentry
  have hup := hsettled.fixed.grounded
  obtain ⟨p, hp⟩ := exists_position hentry hreached
  have hpos : 0 < p := Nat.pos_of_ne_zero fun hzero =>
    hne ((position_eq_zero_iff hentry hp).mp hzero)
  have hlt := (List.getElem?_eq_some_iff.mp hp).1
  obtain ⟨q, hq⟩ := Option.isSome_iff_exists.mp
    (hsettled.full p (by simpa [predecessorPositions] using hlt))
  have hqp : q < p := hup.lower p q hq hpos
  have hd : f.reversePostorder[q]? = some (f.reversePostorder[q]) :=
    List.getElem?_eq_getElem (Nat.lt_trans hqp hlt)
  refine ⟨f.reversePostorder[q], ?_, ?_, ?_, ?_⟩
  · simp only [DominatorTree.immediateDominator?, (position?_eq_some_iff hentry).mpr hp,
      dominatorTree_order hentry, hq, hd, Option.bind_eq_bind, Option.bind_some,
      if_neg (Nat.ne_of_gt hpos)]
  · exact (onChain_iff_dominates hentry hp hd).mp (.up hq (.refl q))
  · intro heq
    rw [heq, ← idxOf?_eq_some_iff_getElem? (reversePostorder_nodup hentry)] at hd
    rw [← idxOf?_eq_some_iff_getElem? (reversePostorder_nodup hentry)] at hp
    exact Nat.ne_of_lt hqp (Option.some.inj (hd.symm.trans hp))
  · intro a hab hne
    obtain ⟨k, hk⟩ := exists_position hentry hab.reached
    have hkp : k ≠ p := fun heq => hne (Option.some.inj (hk.symm.trans (heq ▸ hp)))
    have hchain := (onChain_iff_dominates hentry hp hk).mpr hab
    exact (onChain_iff_dominates hentry hd hk).mp (hchain.of_ne hq hkp)

theorem immediateDominator?_eq_some_iff :
    f.dominatorTree.immediateDominator? b = some d ↔
      f.Reached b ∧ b ≠ f.entry ∧ f.ClosestDominator d b := by
  constructor
  · intro h
    have hlinked := h
    simp only [DominatorTree.immediateDominator?, Option.bind_eq_bind,
      Option.bind_eq_some_iff] at hlinked
    obtain ⟨p, hposition, hlink⟩ := hlinked
    have hp := (position?_eq_some_iff hentry).mp hposition
    have hreached : f.Reached b :=
      (mem_reversePostorder_iff hentry).mp (List.mem_of_getElem? hp)
    have hne : b ≠ f.entry := by
      intro heq
      rw [if_pos ((position_eq_zero_iff hentry hp).mpr heq)] at hlink
      cases hlink
    obtain ⟨d', hd', hclosest⟩ := exists_immediateDominator hentry hreached hne
    obtain rfl := Option.some.inj (h.symm.trans hd')
    exact ⟨hreached, hne, hclosest⟩
  · rintro ⟨hreached, hne, hclosest⟩
    obtain ⟨d', hd', hclosest'⟩ := exists_immediateDominator hentry hreached hne
    rw [hclosest.unique hclosest']
    exact hd'

/-- The walk up the links ends: more steps than the position it starts from give the
same answer. -/
theorem passes_of_le {target steps p : Nat} (hp : p < f.dominatorTree.order.length)
    (hsteps : p ≤ steps) :
    f.dominatorTree.links.passes target steps p = f.dominatorTree.links.passes target p p := by
  have hsettled := dominatorTree_settled hentry
  have hup := hsettled.fixed.grounded
  rw [dominatorTree_order hentry] at hp
  have hlinked := hsettled.full p (by simpa [predecessorPositions] using hp)
  rw [Bool.eq_iff_iff, Links.passes_iff hup hlinked hsteps,
    Links.passes_iff hup hlinked (Nat.le_refl p)]

end

/-- The tree of a function with an entry is found, no lookup fails on the way, and it
answers what the walks from the entry say. -/
theorem dominatorTree_describes_walks {f : Function} (hentry : f.entry < f.blocks.length) :
    f.dominatorTree? = some f.dominatorTree ∧
      (∀ target steps p, p < f.dominatorTree.order.length → p ≤ steps →
        f.dominatorTree.links.passes target steps p =
          f.dominatorTree.links.passes target p p) ∧
      (∀ b, f.dominatorTree.isReachable b = true ↔ b < f.blocks.length ∧ f.Reached b) ∧
      (∀ a b, f.dominatorTree.dominates a b = true ↔
        f.Reached a ∧ f.Reached b ∧ ∀ rest, f.Walk (b :: rest) → a ∈ b :: rest) ∧
      (∀ b, f.Reached b → b ≠ f.entry → ∃! d, f.ClosestDominator d b) ∧
      (∀ b d, f.dominatorTree.immediateDominator? b = some d ↔
        f.Reached b ∧ b ≠ f.entry ∧ f.ClosestDominator d b) := by
  refine ⟨dominatorTree?_eq hentry, fun _ _ _ => passes_of_le hentry, fun b => ?_,
    fun a b => ?_, fun b hreached hne => ?_, fun _ _ => immediateDominator?_eq_some_iff hentry⟩
  · rw [isReachable_iff hentry]
    refine ⟨fun hreached => ⟨?_, hreached⟩, And.right⟩
    obtain ⟨_, hwalk⟩ := hreached
    exact hwalk.hasBlock hentry b List.mem_cons_self
  · rw [dominates_iff hentry]
    exact ⟨fun h => ⟨h.reached, h⟩, And.right⟩
  · obtain ⟨d, _, hclosest⟩ := exists_immediateDominator hentry hreached hne
    exact ⟨d, hclosest, fun _ hother => hother.unique hclosest⟩

/-- A loop that is entered at two blocks, one of them also its own successor; the loop is
left to the entry and to a block that also passes control to a missing one. The last
block is not reached. -/
def tangle : Function where
  name := "tangle"
  returnType := .void
  parameters := [0]
  blocks := [
    { terminator := .branch (.var 0) 1 2 },
    { terminator := .branch (.var 0) 1 2 },
    { terminator := .branch (.var 0) 1 3 },
    { terminator := .branch (.var 0) 0 4 },
    { terminator := .jump 9 },
    { terminator := .jump 4 }]
  values := [{ ty := .int 1 }]

/-- Neither entry of the loop dominates the other. -/
theorem tangle_closestDominators :
    tangle.entry < tangle.blocks.length ∧ tangle.ClosestDominator 0 1 ∧
      tangle.ClosestDominator 0 2 ∧ tangle.ClosestDominator 2 3 ∧
      tangle.ClosestDominator 3 4 ∧ ¬ tangle.Reached 5 := by
  have hentry : tangle.entry < tangle.blocks.length := by decide
  obtain ⟨_, _, hreached, _, _, himmediate⟩ := dominatorTree_describes_walks hentry
  refine ⟨hentry, ((himmediate _ _).mp ?_).2.2, ((himmediate _ _).mp ?_).2.2,
    ((himmediate _ _).mp ?_).2.2, ((himmediate _ _).mp ?_).2.2, fun h => ?_⟩
  iterate 4 decide +kernel
  exact absurd ((hreached 5).mpr ⟨by decide, h⟩) (by decide +kernel)

end Monolith.Function
