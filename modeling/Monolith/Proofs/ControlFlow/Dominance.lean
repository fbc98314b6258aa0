import Mathlib.Algebra.Order.BigOperators.Group.List
import Mathlib.Algebra.Order.Ring.Nat
import Mathlib.Data.List.Nodup
import Monolith.Proofs.ControlFlow.DominatorLinks
import Monolith.Proofs.ControlFlow.ReversePostorder

/-! # The dominator tree is right

Between rounds the links approximate the dominators: chains hold every position
that cannot be avoided on the way to their first position. A round keeps this
and takes positions away from chains only. When the links are settled, a chain
holds nothing else. The tree of a function therefore tells which blocks are
reached and which dominate which.
-/

namespace Monolith.Links

variable {p d y e : Nat} {links : Links} {a b : BlockId}

/-! ## Trails of positions -/

def Feeds (preds : List (List Nat)) (a p : Nat) : Prop :=
  ∃ entries, preds[p]? = some entries ∧ a ∈ entries

/-- All trails to `p` pass through `d`. -/
def Unavoidable (preds : List (List Nat)) (d p : Nat) : Prop :=
  ∀ rest, Trail (Feeds preds) 0 (p :: rest) → d ∈ p :: rest

/-- Edges lead from the first position to the second through increasing ones. -/
inductive Climbs (preds : List (List Nat)) (e : Nat) : Nat → Prop where
  | refl : Climbs preds e e
  | step {q p : Nat} (climb : Climbs preds e q) (feeds : Feeds preds q p) (lt : q < p) :
      Climbs preds e p

variable {preds : List (List Nat)}

theorem Climbs.le (h : Climbs preds e p) : e ≤ p := by
  induction h with
  | refl => exact Nat.le_refl e
  | step _ _ lt ih => omega

theorem Climbs.trans {a : Nat} (hae : Climbs preds a e) (hep : Climbs preds e p) :
    Climbs preds a p := by
  induction hep with
  | refl => exact hae
  | step _ feeds lt ih => exact ih.step feeds lt

theorem Unavoidable.of_feeds (h : Unavoidable preds d p) (hne : d ≠ p) (hfeeds : Feeds preds y p) :
    Unavoidable preds d y := by
  intro rest htrail
  have hmem := h (y :: rest) (htrail.step hfeeds)
  exact (List.mem_cons.mp hmem).resolve_left hne

/-- The positions above `e` do not help to avoid a smaller one. -/
theorem Unavoidable.of_climbs (h : Unavoidable preds d p) (hclimb : Climbs preds e p) (hle : d ≤ e)
    : Unavoidable preds d e := by
  induction hclimb with
  | refl => exact h
  | step climb feeds lt ih =>
      have := climb.le
      exact ih (h.of_feeds (by omega) feeds)

theorem feeds_mem {entries : List Nat} (hfeeds : Feeds preds y p)
    (hentries : preds[p]? = some entries) : y ∈ entries := by
  obtain ⟨entries', hentries', hy⟩ := hfeeds
  rw [hentries] at hentries'
  obtain rfl := Option.some.inj hentries'
  exact hy

theorem Ordered.exists_feeds (hpreds : Ordered preds) (hp : 0 < p) (hlt : p < preds.length) :
    ∃ y, Feeds preds y p ∧ y < p := by
  obtain ⟨y, hy, hyp⟩ := hpreds.below p _ (List.getElem?_eq_getElem hlt) hp
  exact ⟨y, ⟨_, List.getElem?_eq_getElem hlt, hy⟩, hyp⟩

theorem Ordered.feeds_lt (hpreds : Ordered preds) (h : Feeds preds y p) : y < preds.length := by
  obtain ⟨entries, hentries, hy⟩ := h
  exact hpreds.bound p entries hentries y hy

theorem Ordered.exists_trail (hpreds : Ordered preds) (hlt : p < preds.length) :
    ∃ rest, Trail (Feeds preds) 0 (p :: rest) ∧ ∀ x ∈ rest, x < p := by
  induction p using Nat.strongRecOn with
  | _ p ih =>
      rcases Nat.eq_zero_or_pos p with rfl | hp
      · exact ⟨[], .start, by simp⟩
      · obtain ⟨y, hfeeds, hyp⟩ := hpreds.exists_feeds hp hlt
        obtain ⟨rest, htrail, hrest⟩ := ih y hyp (by omega)
        refine ⟨y :: rest, htrail.step hfeeds, ?_⟩
        intro x hx
        rcases List.mem_cons.mp hx with rfl | hx
        · exact hyp
        · exact (hrest x hx).trans hyp

theorem Unavoidable.le (hpreds : Ordered preds) (h : Unavoidable preds d p) (hlt : p < preds.length)
    : d ≤ p := by
  obtain ⟨rest, htrail, hrest⟩ := hpreds.exists_trail hlt
  rcases List.mem_cons.mp (h rest htrail) with rfl | hd
  · exact Nat.le_refl d
  · exact (hrest d hd).le

/-! ## From round to round -/

/-- Every link is on the chains of all smaller predecessors. -/
def Early (preds : List (List Nat)) (up : Nat → Option Nat) : Prop :=
  ∀ p c, 0 < p → up p = some c → ∀ y, Feeds preds y p → y < p → OnChain up y c

theorem climbs_of_onChain (hpreds : Ordered preds) {up : Nat → Option Nat} (hup : Grounded up)
    (hearly : Early preds up) {a : Nat} (hlt : p < preds.length) (h : OnChain up p a) :
    Climbs preds a p := by
  induction p using Nat.strongRecOn generalizing a with
  | _ p ih =>
      cases h with
      | refl => exact .refl
      | @up _ c _ link rest =>
          rcases Nat.eq_zero_or_pos p with rfl | hp
          · have hle : a ≤ 0 := (OnChain.up link rest).le hup
            obtain rfl : a = 0 := by omega
            exact .refl
          · have hcp := hup.lower p c link hp
            obtain ⟨y, hfeeds, hyp⟩ := hpreds.exists_feeds hp hlt
            have hcy := ih y hyp (by omega) (hearly p c hp link y hfeeds hyp)
            exact (ih c hcp (by omega) rest).trans (hcy.step hfeeds hyp)

/-- A position on a chain is on the chains of all larger positions that climb to its
first position. -/
theorem Early.onChain_of_climbs {up : Nat → Option Nat} (hearly : Early preds up)
    (hclimb : Climbs preds e y) (h : OnChain up y d) (hle : d ≤ e) : OnChain up e d := by
  induction hclimb with
  | refl => exact h
  | @step q p climb feeds lt ih =>
      have := climb.le
      apply ih
      cases h with
      | refl => omega
      | up link rest => exact (hearly p _ (by omega) link q feeds lt).trans rest

/-- What holds of the links between two rounds. Before the first one, only the first
position is linked. -/
structure Approximates (preds : List (List Nat)) (links : Links) : Prop where
  length : links.length = preds.length
  grounded : Grounded links.up?
  early : Early preds links.up?
  /-- Chains keep what cannot be avoided. -/
  passed : ∀ p d, (links.up? p).isSome → Unavoidable preds d p → OnChain links.up? p d
  /-- Chains keep what the chains of all predecessors have. -/
  shared : ∀ p d, 0 < p → (links.up? p).isSome → d < p →
    (∀ y, Feeds preds y p → OnChain links.up? y d) → OnChain links.up? p d

def Full (preds : List (List Nat)) (links : Links) : Prop :=
  ∀ p < preds.length, (links.up? p).isSome

theorem lt_length_of_up? (h : (links.up? p).isSome) : p < links.length := by
  unfold up? at h
  by_contra hge
  rw [List.getElem?_eq_none (by omega)] at h
  simp at h

section Round

variable {old new : Links}

/-- While the round is at `p`, a linked predecessor that is not smaller has an old
chain, and all positions were linked before. -/
theorem full_of_mixed (hstart : Full preds old ∨ ∀ p, (old.up? p).isSome → p = 0) (hp : 0 < p)
    (hyp : p ≤ y) (hlinked : (mixed old.up? new.up? p y).isSome) :
    Full preds old ∧ (old.up? y).isSome := by
  rw [mixed, if_neg (by omega)] at hlinked
  refine ⟨hstart.resolve_right fun hzero => ?_, hlinked⟩
  have := hzero y hlinked
  omega

variable (hold : Approximates preds old) (hround : Midway preds old new preds.length)

include hold hround

theorem round_mixed_grounded (hp : 0 < p) (hlt : p < preds.length) :
    Grounded (mixed old.up? new.up? p) :=
  mixed_grounded hold.grounded hround.grounded hp fun x hx => hround.earlier x (by omega)

theorem round_early : Early preds new.up? := by
  intro p c hp hlink y hfeeds hyp
  have hlt : p < preds.length := hround.length ▸ lt_length_of_up? (by rw [hlink]; rfl)
  obtain ⟨entries, c', hentries, hlink', _, hmeets⟩ := hround.placed p hp hlt
  rw [hlink] at hlink'
  obtain rfl := Option.some.inj hlink'
  have hlinked : (mixed old.up? new.up? p y).isSome := by
    rw [mixed, if_pos hyp]
    exact hround.earlier y (by omega)
  have hchain := hmeets.common y (feeds_mem hfeeds hentries) hlinked
  exact hchain.congr (round_mixed_grounded hold hround hp hlt) (fun x hx => if_pos hx) hyp

variable (hpreds : Ordered preds)

include hpreds

/-- A later round takes positions away from chains and adds none. -/
theorem round_shrinks (hfull : Full preds old) (hlt : p < preds.length) (h : OnChain new.up? p d) :
    OnChain old.up? p d := by
  induction p using Nat.strongRecOn generalizing d with
  | _ p ih =>
      rcases Nat.eq_zero_or_pos p with rfl | hp
      · have := h.le hround.grounded
        obtain rfl : d = 0 := by omega
        exact .refl 0
      by_cases hdp : d = p
      · rw [hdp]
        exact .refl p
      obtain ⟨entries, c, hentries, hlink, hcp, hmeets⟩ := hround.placed p hp hlt
      have hmixed := round_mixed_grounded hold hround hp hlt
      -- It is enough that the new link was on the old chain.
      suffices hpc : OnChain old.up? p c from
        hpc.trans (ih c hcp (by omega) (h.of_ne hlink hdp))
      apply hold.shared p c hp (hfull p hlt) hcp
      intro y hfeeds
      have hy := hpreds.feeds_lt hfeeds
      have hlinked : (mixed old.up? new.up? p y).isSome := by
        unfold mixed
        split
        · exact hround.earlier y hy
        · exact hfull y hy
      obtain ⟨e, hep, hye, hec⟩ :=
        (hmeets.common y (feeds_mem hfeeds hentries) hlinked).of_mixed hmixed hcp
      exact hye.trans (ih e hep (by omega) hec)

variable (hstart : Full preds old ∨ ∀ p, (old.up? p).isSome → p = 0)

include hstart

theorem round_shared (hp : 0 < p) (hlt : p < preds.length) (hdp : d < p)
    (hall : ∀ y, Feeds preds y p → OnChain new.up? y d) : OnChain new.up? p d := by
  obtain ⟨entries, c, hentries, hlink, hcp, hmeets⟩ := hround.placed p hp hlt
  have hmixed := round_mixed_grounded hold hround hp hlt
  refine .up hlink ((hmeets.greatest d ?_).congr hmixed (fun x hx => if_pos hx) hcp)
  intro y hy hlinked
  have hfeeds : Feeds preds y p := ⟨entries, hentries, hy⟩
  have hlty := hpreds.feeds_lt hfeeds
  have hyd := hall y hfeeds
  by_cases hyp : y < p
  · exact hyd.congr hround.grounded (fun x hx => (if_pos hx).symm) hyp
  · obtain ⟨hfull, _⟩ := full_of_mixed hstart hp (by omega) hlinked
    obtain ⟨e, _, hye, hed, hfollow⟩ :=
      (round_shrinks hold hround hpreds hfull hlty hyd).to_mixed hround.grounded hdp
    have hclimb := climbs_of_onChain hpreds hold.grounded hold.early hlty hye
    exact hfollow d ((round_early hold hround).onChain_of_climbs hclimb hyd
      (hed.le hold.grounded))

theorem round_passed (hlt : p < preds.length) (h : Unavoidable preds d p) :
    OnChain new.up? p d := by
  induction p using Nat.strongRecOn generalizing d with
  | _ p ih =>
      by_cases hdp : d = p
      · rw [hdp]
        exact .refl p
      have hdlt : d < p := by
        have := h.le hpreds hlt
        omega
      obtain ⟨entries, c, hentries, hlink, hcp, hmeets⟩ := hround.placed p (by omega) hlt
      have hmixed := round_mixed_grounded hold hround (by omega) hlt
      refine .up hlink ((hmeets.greatest d ?_).congr hmixed (fun x hx => if_pos hx) hcp)
      intro y hy hlinked
      have hfeeds : Feeds preds y p := ⟨entries, hentries, hy⟩
      have hlty := hpreds.feeds_lt hfeeds
      have hyd := h.of_feeds hdp hfeeds
      by_cases hyp : y < p
      · exact (ih y hyp hlty hyd).congr hround.grounded (fun x hx => (if_pos hx).symm) hyp
      · obtain ⟨_, hold'⟩ := full_of_mixed hstart (by omega) (by omega) hlinked
        obtain ⟨e, hep, hye, hed, hfollow⟩ :=
          (hold.passed y d hold' hyd).to_mixed hround.grounded hdlt
        have hclimb := climbs_of_onChain hpreds hold.grounded hold.early hlty hye
        exact hfollow d (ih e hep (by omega) (hyd.of_climbs hclimb (hed.le hold.grounded)))

theorem round_approximates : Approximates preds new where
  length := hround.length
  grounded := hround.grounded
  early := round_early hold hround
  passed := by
    intro p d hlinked h
    exact round_passed hold hround hpreds hstart (hround.length ▸ lt_length_of_up? hlinked) h
  shared := by
    intro p d hp hlinked hdp hall
    have hlt : p < preds.length := hround.length ▸ lt_length_of_up? hlinked
    exact round_shared hold hround hpreds hstart hp hlt hdp hall

end Round

/-! ## Settled links -/

def weight (links : Links) : Nat :=
  ((List.range links.length).map fun p => (links.up? p).getD 0).sum

theorem weight_le (hup : Grounded links.up?) : links.weight ≤ links.length * links.length := by
  have hbound : ∀ x ∈ (List.range links.length).map fun p => (links.up? p).getD 0,
      x ≤ links.length := by
    intro x hx
    obtain ⟨p, hp, rfl⟩ := List.mem_map.mp hx
    have hp := List.mem_range.mp hp
    cases hlink : links.up? p with
    | none => exact Nat.zero_le _
    | some c =>
        have : c ≤ p := (OnChain.up hlink (.refl c)).le hup
        exact this.trans hp.le
  simpa [weight] using List.sum_le_card_nsmul _ _ hbound

theorem ext_of_full {old new : Links} (hold : Full preds old) (hlength : old.length = preds.length)
    (hlength' : new.length = preds.length) (h : ∀ p < preds.length, old.up? p = new.up? p) :
    old = new := by
  apply List.ext_getElem?
  intro p
  by_cases hp : p < preds.length
  · obtain ⟨c, hc⟩ := Option.isSome_iff_exists.mp (hold p hp)
    have hc' : new.up? p = some c := by rw [← h p hp, hc]
    unfold up? at hc hc'
    rw [Option.join_eq_some_iff.mp hc, Option.join_eq_some_iff.mp hc']
  · rw [List.getElem?_eq_none (by omega), List.getElem?_eq_none (by omega)]

theorem round_weight_lt {old new : Links} (hold : Approximates preds old)
    (hround : Midway preds old new preds.length) (hpreds : Ordered preds) (hfull : Full preds old)
    (hne : new ≠ old) : new.weight < old.weight := by
  -- The new link is on the old chain, so it is not larger than the old one.
  have hle : ∀ p < preds.length, (new.up? p).getD 0 ≤ (old.up? p).getD 0 := by
    intro p hlt
    obtain ⟨c, hc⟩ := Option.isSome_iff_exists.mp (hround.earlier p hlt)
    obtain ⟨q, hq⟩ := Option.isSome_iff_exists.mp (hfull p hlt)
    rw [hc, hq]
    rcases Nat.eq_zero_or_pos p with rfl | hp
    · rw [hround.grounded.root] at hc
      exact (Option.some.inj hc) ▸ Nat.zero_le _
    · have hcp := hround.grounded.lower p c hc hp
      have hpc := round_shrinks hold hround hpreds hfull hlt (.up hc (.refl c))
      exact (hpc.of_ne hq (by omega)).le hold.grounded
  unfold weight
  rw [hround.length, hold.length]
  apply List.sum_lt_sum
  · intro p hp
    exact hle p (List.mem_range.mp hp)
  · by_contra hnone
    apply hne
    refine (ext_of_full hfull hold.length hround.length fun p hlt => ?_).symm
    obtain ⟨c, hc⟩ := Option.isSome_iff_exists.mp (hround.earlier p hlt)
    obtain ⟨q, hq⟩ := Option.isSome_iff_exists.mp (hfull p hlt)
    have hge : ¬ (new.up? p).getD 0 < (old.up? p).getD 0 :=
      fun h => hnone ⟨p, List.mem_range.mpr hlt, h⟩
    have hle := hle p hlt
    rw [hc, hq] at hge hle ⊢
    have hcq : c = q := Nat.le_antisymm hle (Nat.not_lt.mp hge)
    rw [hcq]

structure Settled (preds : List (List Nat)) (links : Links) : Prop where
  approximates : Approximates preds links
  full : Full preds links
  fixed : Midway preds links links preds.length

theorem settle?_spec (hpreds : Ordered preds) (hlinks : Approximates preds links)
    (hfull : Full preds links) {rounds : Nat} (hrounds : links.weight < rounds) :
    ∃ last, settle? preds rounds links = some last ∧ Settled preds last := by
  induction rounds generalizing links with
  | zero => omega
  | succ rounds ih =>
      obtain ⟨next, hnext, hround⟩ := round?_spec hpreds hlinks.length hlinks.grounded
      unfold settle?
      by_cases heq : next = links
      · subst heq
        exact ⟨next, by simp [hnext], hlinks, hfull, hround⟩
      · have hlt := round_weight_lt hlinks hround hpreds hfull heq
        obtain ⟨last, hlast, hsettled⟩ :=
          ih (round_approximates hlinks hround hpreds (.inl hfull)) hround.earlier (by omega)
        exact ⟨last, by simp [hnext, heq, hlast], hsettled⟩

/-- The chains of settled links hold exactly what cannot be avoided. -/
theorem Settled.onChain_iff (hsettled : Settled preds links) (hpreds : Ordered preds)
    (hlt : p < preds.length) : OnChain links.up? p d ↔ Unavoidable preds d p := by
  constructor
  · intro h rest htrail
    generalize hnodes : p :: rest = nodes at htrail
    induction htrail generalizing p rest d with
    | start =>
        obtain ⟨rfl, rfl⟩ := List.cons.inj hnodes
        have := h.le hsettled.fixed.grounded
        obtain rfl : d = 0 := by omega
        exact List.mem_cons_self
    | @step y b trail htrail hfeeds ih =>
        obtain ⟨rfl, rfl⟩ := List.cons.inj hnodes
        rcases Nat.eq_zero_or_pos p with rfl | hp
        · have := h.le hsettled.fixed.grounded
          obtain rfl : d = 0 := by omega
          exact List.mem_cons_self
        by_cases hdp : d = p
        · rw [hdp]
          exact List.mem_cons_self
        obtain ⟨entries, c, hentries, hlink, hcp, hmeets⟩ := hsettled.fixed.placed p hp hlt
        have hnow : mixed links.up? links.up? p = links.up? := by
          funext x
          exact ite_self _
        rw [hnow] at hmeets
        have hy := hpreds.feeds_lt hfeeds
        have hyc := hmeets.common y (feeds_mem hfeeds hentries) (hsettled.full y hy)
        exact List.mem_cons_of_mem _ (ih hy (hyc.trans (h.of_ne hlink hdp)) _ rfl)
  · exact hsettled.approximates.passed p d (hsettled.full p hlt)

theorem passes_iff (hup : Grounded links.up?) {target steps : Nat} (hlinked : (links.up? p).isSome)
    (hsteps : p ≤ steps) : links.passes target steps p = true ↔ OnChain links.up? p target := by
  have hzero : OnChain links.up? 0 target ↔ 0 = target :=
    ⟨fun h => (Nat.le_zero.mp (h.le hup)).symm, fun h => h ▸ .refl 0⟩
  induction steps generalizing p with
  | zero =>
      obtain rfl : p = 0 := by omega
      simp [passes, hzero]
  | succ steps ih =>
      rcases Nat.eq_zero_or_pos p with rfl | hp
      · simp [passes, hzero]
      · obtain ⟨q, hq⟩ := Option.isSome_iff_exists.mp hlinked
        have hlow := hup.lower p q hq hp
        have hrest := ih (hup.linked p q hq) (by omega)
        by_cases htarget : target = p
        · simp [passes, htarget, OnChain.refl]
        · have hstep : OnChain links.up? p target ↔ OnChain links.up? q target :=
            ⟨fun h => h.of_ne hq htarget, fun h => .up hq h⟩
          refine Iff.trans ?_ (hrest.trans hstep.symm)
          simp [passes, hq, Ne.symm htarget, hp.ne']

/-- Only the first position is linked. -/
theorem up?_start (n x : Nat) :
    Links.up? ((List.range n).map fun p => if p = 0 then some 0 else none) x =
      if x = 0 ∧ 0 < n then some 0 else none := by
  unfold up?
  rw [List.getElem?_map]
  by_cases hx : x < n
  · rw [List.getElem?_range hx]
    by_cases hzero : x = 0
    · subst hzero
      simp [hx]
    · simp [hzero]
  · rw [List.getElem?_eq_none (by simpa using hx), if_neg (by omega)]
    rfl

theorem start_approximates (hpreds : Ordered preds) :
    Approximates preds
      ((List.range preds.length).map fun p => if p = 0 then some 0 else none) := by
  have hup := up?_start preds.length
  have hnone : ∀ p, 0 < p → Links.up?
      ((List.range preds.length).map fun p => if p = 0 then some 0 else none) p = none := by
    intro p hp
    rw [hup, if_neg (by omega)]
  have hzero := (hup 0).trans (if_pos ⟨rfl, hpreds.nonempty⟩)
  refine ⟨by simp, ⟨hzero, ?_, ?_⟩, ?_, ?_, ?_⟩
  · intro p q hpq hp
    rw [hnone p hp] at hpq
    cases hpq
  · intro p q hpq
    rcases Nat.eq_zero_or_pos p with rfl | hp
    · rw [hzero] at hpq
      obtain rfl := Option.some.inj hpq
      rw [hzero]
      rfl
    · rw [hnone p hp] at hpq
      cases hpq
  · intro p c hp hlink
    rw [hnone p hp] at hlink
    cases hlink
  · intro p d hlinked h
    rcases Nat.eq_zero_or_pos p with rfl | hp
    · obtain rfl := List.mem_singleton.mp (h [] .start)
      exact .refl _
    · rw [hnone p hp] at hlinked
      cases hlinked
  · intro p d hp hlinked
    rw [hnone p hp] at hlinked
    cases hlinked

/-- The rounds that are allowed for are enough. -/
theorem settle?_start (hpreds : Ordered preds) :
    ∃ last, settle? preds (preds.length * preds.length + 2)
      ((List.range preds.length).map fun p => if p = 0 then some 0 else none) = some last ∧
        Settled preds last := by
  have hstart := start_approximates hpreds
  obtain ⟨first, hfirst, hround⟩ := round?_spec hpreds hstart.length hstart.grounded
  unfold settle?
  by_cases heq : first = (List.range preds.length).map fun p => if p = 0 then some 0 else none
  · rw [← heq] at hfirst hround hstart ⊢
    exact ⟨first, by simp [hfirst], hstart, hround.earlier, hround⟩
  · have hnext : Approximates preds first := by
      apply round_approximates hstart hround hpreds
      refine .inr fun p hlinked => ?_
      by_contra hp
      rw [up?_start, if_neg (by omega)] at hlinked
      cases hlinked
    have hweight := weight_le hnext.grounded
    rw [hnext.length] at hweight
    obtain ⟨last, hlast, hsettled⟩ := settle?_spec hpreds hnext hround.earlier
      (Nat.lt_succ_of_le hweight)
    exact ⟨last, by simp [hfirst, heq, hlast], hsettled⟩

end Monolith.Links

namespace Monolith.Function

/-! ## The tree of a function -/

theorem idxOf?_eq_some_iff_getElem? {order : List BlockId} (hnodup : order.Nodup) :
    order.idxOf? a = some p ↔ order[p]? = some a := by
  rw [List.idxOf?_eq_some_iff, List.getElem?_eq_some_iff]
  constructor
  · rintro ⟨hp, ha, _⟩
    exact ⟨hp, ha⟩
  · rintro ⟨hp, ha⟩
    refine ⟨hp, ha, fun q hq heq => ?_⟩
    have := hnodup.getElem_inj_iff.mp (heq.trans ha.symm)
    omega

section

variable {f : Function} (hentry : f.entry < f.blocks.length)

include hentry

/-- Edges between positions are edges between the blocks there. -/
theorem feeds_iff {q : Nat} :
    Links.Feeds (f.predecessorPositions f.reversePostorder) q p ↔
      ∃ a b, f.reversePostorder[q]? = some a ∧ f.reversePostorder[p]? = some b ∧
        f.Edge a b := by
  have hnodup := reversePostorder_nodup hentry
  unfold Links.Feeds predecessorPositions
  simp only [List.getElem?_map, Option.map_eq_some_iff]
  constructor
  · rintro ⟨_, ⟨b, hb, rfl⟩, hq⟩
    obtain ⟨a, ha, hpos⟩ := List.mem_filterMap.mp hq
    refine ⟨a, b, (idxOf?_eq_some_iff_getElem? hnodup).mp hpos, hb, edge_iff.mpr ⟨?_, ?_⟩⟩
    · exact mem_predecessors.mp ha
    · obtain ⟨rest, hwalk⟩ := (mem_reversePostorder_iff hentry).mp (List.mem_of_getElem? hb)
      exact Walk.hasBlock hwalk hentry b List.mem_cons_self
  · rintro ⟨a, b, ha, hb, hedge⟩
    refine ⟨_, ⟨b, hb, rfl⟩, List.mem_filterMap.mpr ⟨a, ?_, ?_⟩⟩
    · exact mem_predecessors.mpr (edge_iff.mp hedge).1
    · exact (idxOf?_eq_some_iff_getElem? hnodup).mpr ha

theorem reversePostorder_zero : f.reversePostorder[0]? = some f.entry := by
  obtain ⟨rest, hhead⟩ := reversePostorder_head hentry
  rw [hhead]
  rfl

theorem predecessorPositions_ordered :
    Links.Ordered (f.predecessorPositions f.reversePostorder) := by
  have hlength : (f.predecessorPositions f.reversePostorder).length =
      f.reversePostorder.length := by simp [predecessorPositions]
  refine ⟨?_, ?_, ?_⟩
  · rw [hlength]
    exact (List.getElem?_eq_some_iff.mp (reversePostorder_zero hentry)).1
  · intro p entries hentries y hy
    obtain ⟨a, _, ha, _⟩ := (feeds_iff hentry).mp ⟨entries, hentries, hy⟩
    rw [hlength]
    exact (List.getElem?_eq_some_iff.mp ha).1
  · intro p entries hentries hp
    have hlt : p < f.reversePostorder.length := by
      rw [← hlength]
      exact (List.getElem?_eq_some_iff.mp hentries).1
    have hsplit : f.reversePostorder = f.reversePostorder.take p ++
        f.reversePostorder[p] :: f.reversePostorder.drop (p + 1) := by
      rw [← List.drop_eq_getElem_cons hlt, List.take_append_drop]
    rcases exists_edge_of_reversePostorder hentry hsplit with hroot | ⟨a, ha, hedge⟩
    · obtain ⟨hlt', hzero⟩ := List.getElem?_eq_some_iff.mp (reversePostorder_zero hentry)
      have := (reversePostorder_nodup hentry).getElem_inj_iff.mp (hroot.trans hzero.symm)
      omega
    · obtain ⟨q, hq⟩ := List.getElem?_of_mem ha
      have hqp : q < p := by
        have := (List.getElem?_eq_some_iff.mp hq).1
        rw [List.length_take] at this
        omega
      rw [List.getElem?_take_of_lt hqp] at hq
      have hfeeds := (feeds_iff hentry).mpr ⟨a, _, hq, List.getElem?_eq_getElem hlt, hedge⟩
      exact ⟨q, Links.feeds_mem hfeeds hentries, hqp⟩

/-- The positions of a walk form a trail, so what is on all trails is on all walks. -/
theorem mem_walk_of_unavoidable (hb : f.reversePostorder[p]? = some b)
    (ha : f.reversePostorder[d]? = some a)
    (h : Links.Unavoidable (f.predecessorPositions f.reversePostorder) d p) {rest : List BlockId}
    (hwalk : f.Walk (b :: rest)) : a ∈ b :: rest := by
  have hplace : ∀ {q : Nat} {x : BlockId}, f.reversePostorder[q]? = some x →
      f.reversePostorder.idxOf x = q := by
    intro q x hx
    obtain ⟨hq, rfl⟩ := List.getElem?_eq_some_iff.mp hx
    exact (reversePostorder_nodup hentry).idxOf_getElem q hq
  have hget : ∀ x ∈ b :: rest, f.reversePostorder[f.reversePostorder.idxOf x]? = some x := by
    intro x hx
    have hmem := (mem_reversePostorder_iff hentry).mpr (Walk.reached hwalk x hx)
    rw [List.getElem?_eq_getElem (List.idxOf_lt_length_of_mem hmem), List.getElem_idxOf]
  have htrail : Trail (Links.Feeds (f.predecessorPositions f.reversePostorder))
      (f.reversePostorder.idxOf f.entry) ((b :: rest).map f.reversePostorder.idxOf) :=
    hwalk.map _ fun x y hx hedge hy =>
      (feeds_iff hentry).mpr ⟨x, y, hget x hx, hget y hy, hedge⟩
  rw [hplace (reversePostorder_zero hentry), List.map_cons, hplace hb] at htrail
  rcases List.mem_cons.mp (h _ htrail) with rfl | hmem
  · rw [Option.some.inj (ha.symm.trans hb)]
    exact List.mem_cons_self
  · obtain ⟨x, hx, rfl⟩ := List.mem_map.mp hmem
    have hx := List.mem_cons_of_mem b hx
    rwa [Option.some.inj (ha.symm.trans (hget x hx))]

/-- The blocks at the positions of a trail form a walk, so what is on all walks is on all
trails. -/
theorem unavoidable_of_dominates (hb : f.reversePostorder[p]? = some b)
    (ha : f.reversePostorder[d]? = some a) (h : f.Dominates a b) :
    Links.Unavoidable (f.predecessorPositions f.reversePostorder) d p := by
  intro rest htrail
  have hzero := reversePostorder_zero hentry
  have hlength : ∀ q ∈ p :: rest, q < f.reversePostorder.length :=
    htrail.forall_mem (List.getElem?_eq_some_iff.mp hzero).1 fun q r _ hfeeds => by
      obtain ⟨_, y, _, hy, _⟩ := (feeds_iff hentry).mp hfeeds
      exact (List.getElem?_eq_some_iff.mp hy).1
  have hblock : ∀ {q : Nat} {x : BlockId}, f.reversePostorder[q]? = some x →
      f.reversePostorder.getD q 0 = x := by
    intro q x hx
    rw [List.getD_eq_getElem?_getD, hx]
    rfl
  have hwalk : Trail f.Edge (f.reversePostorder.getD 0 0)
      ((p :: rest).map fun q => f.reversePostorder.getD q 0) := by
    refine htrail.map (fun q => f.reversePostorder.getD q 0) fun q r _ hfeeds _ => ?_
    obtain ⟨x, y, hx, hy, hedge⟩ := (feeds_iff hentry).mp hfeeds
    rw [hblock hx, hblock hy]
    exact hedge
  rw [hblock hzero, List.map_cons, hblock hb] at hwalk
  have hmem := h.2 _ hwalk
  rw [← hblock hb, ← List.map_cons (f := fun q => f.reversePostorder.getD q 0)] at hmem
  obtain ⟨q, hq, hqa⟩ := List.mem_map.mp hmem
  have hqa' : f.reversePostorder[q]? = some a := by
    rw [← hqa, List.getD_eq_getElem?_getD, List.getElem?_eq_getElem (hlength q hq)]
    rfl
  obtain ⟨_, hda⟩ := List.getElem?_eq_some_iff.mp ha
  obtain ⟨_, hqa'⟩ := List.getElem?_eq_some_iff.mp hqa'
  obtain rfl := (reversePostorder_nodup hentry).getElem_inj_iff.mp (hda.trans hqa'.symm)
  exact hq

theorem unavoidable_iff_dominates (hb : f.reversePostorder[p]? = some b)
    (ha : f.reversePostorder[d]? = some a) :
    Links.Unavoidable (f.predecessorPositions f.reversePostorder) d p ↔ f.Dominates a b := by
  refine ⟨fun h => ⟨?_, fun rest => mem_walk_of_unavoidable hentry hb ha h⟩,
    unavoidable_of_dominates hentry hb ha⟩
  exact (mem_reversePostorder_iff hentry).mp (List.mem_of_getElem? hb)

/-- The rounds settle, so that the tree exists. -/
theorem dominatorTree?_settled :
    ∃ links, f.dominatorTree? = some { order := f.reversePostorder, links } ∧
      Links.Settled (f.predecessorPositions f.reversePostorder) links := by
  obtain ⟨last, hlast, hsettled⟩ := Links.settle?_start (predecessorPositions_ordered hentry)
  have hlength : (f.predecessorPositions f.reversePostorder).length =
      f.reversePostorder.length := by simp [predecessorPositions]
  have hstart : (f.reversePostorder.zipIdx.map fun entry =>
      if entry.2 = 0 then some 0 else none) =
      (List.range f.reversePostorder.length).map fun p => if p = 0 then some 0 else none := by
    rw [List.range_eq_range', ← List.zipIdx_map_snd, List.map_map]
    rfl
  refine ⟨last, ?_, hsettled⟩
  unfold dominatorTree?
  rw [hlength] at hlast
  simp [hstart, hlast]

theorem isReachable_iff : f.dominatorTree.isReachable b = true ↔ f.Reached b := by
  obtain ⟨links, htree, _⟩ := dominatorTree?_settled hentry
  rw [dominatorTree, htree, ← mem_reversePostorder_iff hentry]
  simp [DominatorTree.isReachable, DominatorTree.position?]

theorem dominates_iff : f.dominatorTree.dominates a b = true ↔ f.Dominates a b := by
  obtain ⟨links, htree, hsettled⟩ := dominatorTree?_settled hentry
  have hnodup := reversePostorder_nodup hentry
  have hmem : ∀ x, f.reversePostorder.idxOf? x = none → ¬ f.Reached x := by
    intro x hx hreached
    exact List.idxOf?_eq_none_iff.mp hx ((mem_reversePostorder_iff hentry).mpr hreached)
  rw [dominatorTree, htree]
  simp only [Option.getD_some, DominatorTree.dominates, DominatorTree.position?]
  split
  next d p hd hp =>
    have hb := (idxOf?_eq_some_iff_getElem? hnodup).mp hp
    have ha := (idxOf?_eq_some_iff_getElem? hnodup).mp hd
    have hlt : p < (f.predecessorPositions f.reversePostorder).length := by
      simpa [predecessorPositions] using (List.getElem?_eq_some_iff.mp hb).1
    rw [Links.passes_iff hsettled.fixed.grounded (hsettled.full p hlt) (Nat.le_refl p),
      hsettled.onChain_iff (predecessorPositions_ordered hentry) hlt,
      unavoidable_iff_dominates hentry hb ha]
  next hnone =>
    refine iff_of_false Bool.false_ne_true ?_
    rintro ⟨hb, hall⟩
    obtain ⟨rest, hwalk⟩ := hb
    cases hd : f.reversePostorder.idxOf? a with
    | none => exact hmem a hd (Walk.reached hwalk a (hall rest hwalk))
    | some d =>
        cases hp : f.reversePostorder.idxOf? b with
        | none => exact hmem b hp ⟨rest, hwalk⟩
        | some p => exact hnone d p hd hp

end

end Monolith.Function
