import Mathlib.Tactic.Common
import Monolith.Dominators
import Monolith.Proofs.ControlFlow.Walk

/-! # Rounds of links

The positions of a graph are linked to smaller ones, and the links of a position
form its chain. A round links every position to where the chains of its linked
predecessors meet. From one round to the next chains only lose positions, so the
rounds settle; what a chain never loses are the positions that all trails to its
first position pass.
-/

namespace Monolith.Links

variable {links : Links} {k : Nat} {old new : Nat → Option Nat} {preds : List (List Nat)}

/-! ## Chains -/

/-- The chain from the first position passes through the second. -/
inductive OnChain (up : Nat → Option Nat) : Nat → Nat → Prop where
  | refl (p : Nat) : OnChain up p p
  | up {p q a : Nat} (link : up p = some q) (rest : OnChain up q a) : OnChain up p a

/-- Links lead to smaller linked positions, and the first position links to itself. -/
structure Grounded (up : Nat → Option Nat) : Prop where
  root : up 0 = some 0
  lower : ∀ p q, up p = some q → 0 < p → q < p
  linked : ∀ p q, up p = some q → (up q).isSome

namespace OnChain

variable {up : Nat → Option Nat} {p q a b : Nat}

theorem trans (hpq : OnChain up p q) (hqa : OnChain up q a) : OnChain up p a := by
  induction hpq with
  | refl => exact hqa
  | up link _ ih => exact .up link (ih hqa)

theorem le (hup : Grounded up) (h : OnChain up p a) : a ≤ p := by
  induction h with
  | refl => exact Nat.le_refl _
  | @up p q a link _ ih =>
      rcases Nat.eq_zero_or_pos p with rfl | hp
      · rw [hup.root] at link
        obtain rfl := Option.some.inj link
        exact ih
      · exact Nat.le_trans ih (Nat.le_of_lt (hup.lower p q link hp))

theorem linked (hup : Grounded up) (h : OnChain up p a) (hp : (up p).isSome) :
    (up a).isSome := by
  induction h with
  | refl => exact hp
  | up link _ ih => exact ih (hup.linked _ _ link)

/-- What is on a chain above its first position is on the chain of its link. -/
theorem of_ne (h : OnChain up p a) (link : up p = some q) (hne : a ≠ p) : OnChain up q a := by
  cases h with
  | refl => exact absurd rfl hne
  | up link' rest =>
      rw [link] at link'
      obtain rfl := Option.some.inj link'
      exact rest

/-- Chains only depend on the links of smaller positions. -/
theorem congr (hup : Grounded up) {up' : Nat → Option Nat} (hagree : ∀ x < k, up x = up' x)
    (h : OnChain up p a) (hp : p < k) : OnChain up' p a := by
  induction h with
  | refl => exact .refl _
  | @up p q a link _ ih =>
      have hq : q ≤ p := (OnChain.up link (.refl q)).le hup
      exact .up (hagree p hp ▸ link) (ih (by omega))

end OnChain

/-- The position on the chains of all linked entries of the list through which all
other positions of that kind are reached. -/
structure Meets (up : Nat → Option Nat) (entries : List Nat) (c : Nat) : Prop where
  common : ∀ y ∈ entries, (up y).isSome → OnChain up y c
  greatest : ∀ d, (∀ y ∈ entries, (up y).isSome → OnChain up y d) → OnChain up c d

theorem meet?_spec (hup : Grounded links.up?) {steps a b : Nat} (ha : (links.up? a).isSome)
    (hb : (links.up? b).isSome) (hsteps : a + b ≤ steps) :
    ∃ c, links.meet? steps a b = some c ∧ OnChain links.up? a c ∧ OnChain links.up? b c ∧
      ∀ d, OnChain links.up? a d → OnChain links.up? b d → OnChain links.up? c d := by
  induction steps generalizing a b with
  | zero =>
      obtain ⟨rfl, rfl⟩ : a = 0 ∧ b = 0 := by omega
      exact ⟨0, rfl, .refl 0, .refl 0, fun _ h _ => h⟩
  | succ steps ih =>
      unfold meet?
      split
      next heq =>
        subst heq
        exact ⟨a, rfl, .refl a, .refl a, fun _ h _ => h⟩
      next hne =>
        split
        next hlt =>
          obtain ⟨q, hq⟩ := Option.isSome_iff_exists.mp ha
          have hlow := hup.lower a q hq (by omega)
          obtain ⟨c, hmeet, hqc, hbc, hgreatest⟩ := ih (hup.linked a q hq) hb (by omega)
          refine ⟨c, by simpa [hq] using hmeet, .up hq hqc, hbc, fun d had hbd => ?_⟩
          have := hbd.le hup
          exact hgreatest d (had.of_ne hq (by omega)) hbd
        next hge =>
          obtain ⟨q, hq⟩ := Option.isSome_iff_exists.mp hb
          have hlow := hup.lower b q hq (by omega)
          obtain ⟨c, hmeet, hac, hqc, hgreatest⟩ := ih ha (hup.linked b q hq) (by omega)
          refine ⟨c, by simpa [hq] using hmeet, hac, .up hq hqc, fun d had hbd => ?_⟩
          have := had.le hup
          exact hgreatest d had (hbd.of_ne hq (by omega))

/-- The chains of several positions meet. -/
theorem foldlM_meet?_spec (hup : Grounded links.up?) {first : Nat} {rest : List Nat}
    (hfirst : (links.up? first).isSome) (hrest : ∀ y ∈ rest, (links.up? y).isSome) :
    ∃ c, rest.foldlM (fun current p => links.meet? (p + current) p current) first = some c ∧
      (∀ y ∈ first :: rest, OnChain links.up? y c) ∧
      ∀ d, (∀ y ∈ first :: rest, OnChain links.up? y d) → OnChain links.up? c d := by
  induction rest generalizing first with
  | nil => exact ⟨first, rfl, by simp [OnChain.refl], fun d hd => hd first List.mem_cons_self⟩
  | cons y rest ih =>
      have hy := hrest y List.mem_cons_self
      obtain ⟨e, hmeet, hye, hfirste, he⟩ := meet?_spec hup hy hfirst (Nat.le_refl _)
      obtain ⟨c, hfold, hcommon, hgreatest⟩ := ih (hye.linked hup hy)
        fun z hz => hrest z (List.mem_cons_of_mem _ hz)
      have hec := hcommon e List.mem_cons_self
      refine ⟨c, by simp [hmeet, hfold], ?_, fun d hd => hgreatest d ?_⟩
      · intro z hz
        rcases List.mem_cons.mp hz with rfl | hz
        · exact hfirste.trans hec
        rcases List.mem_cons.mp hz with rfl | hz
        · exact hye.trans hec
        · exact hcommon z (List.mem_cons_of_mem _ hz)
      · intro z hz
        rcases List.mem_cons.mp hz with rfl | hz
        · exact he d (hd y (by simp)) (hd first (by simp))
        · exact hd z (by simp [hz])

theorem up?_set {p c : Nat} (hp : p < links.length) (x : Nat) :
    Links.up? (links.set p (some c)) x = if x = p then some c else links.up? x := by
  unfold up?
  split
  next h =>
    subst h
    rw [List.getElem?_set_self hp, Option.join_some]
  next h => rw [List.getElem?_set_ne (Ne.symm h)]

theorem Grounded.set {c : Nat} (h : Grounded links.up?) (hk : 0 < k) (hlength : k < links.length)
    (hlt : c < k) (hc : (links.up? c).isSome) : Grounded (Links.up? (links.set k (some c))) := by
  have hother : ∀ x, x ≠ k → Links.up? (links.set k (some c)) x = links.up? x := by
    intro x hx
    rw [up?_set hlength, if_neg hx]
  have hself : Links.up? (links.set k (some c)) k = some c := by
    rw [up?_set hlength, if_pos rfl]
  constructor
  case root =>
    rw [hother 0 (by omega)]
    exact h.root
  case lower =>
    intro p q hpq hp
    by_cases hpk : p = k
    · subst hpk
      rw [hself] at hpq
      exact Option.some.inj hpq ▸ hlt
    · rw [hother p hpk] at hpq
      exact h.lower p q hpq hp
  case linked =>
    intro p q hpq
    by_cases hqk : q = k
    · rw [hqk, hself]
      rfl
    · rw [hother q hqk]
      by_cases hpk : p = k
      · subst hpk
        rw [hself] at hpq
        exact Option.some.inj hpq ▸ hc
      · rw [hother p hpk] at hpq
        exact h.linked p q hpq

/-- A position with a smaller linked predecessor is linked to where the chains of all
its linked predecessors meet. -/
theorem refine?_spec (hup : Grounded links.up?) {entries : List Nat} {p : Nat}
    (hbelow : ∃ y ∈ entries, y < p ∧ (links.up? y).isSome) :
    ∃ c, refine? entries links p = some (links.set p (some c)) ∧ c < p ∧
      (links.up? c).isSome ∧ Meets links.up? entries c := by
  obtain ⟨y, hy, hlt, hlinked⟩ := hbelow
  unfold refine?
  split
  next hnone =>
    have hmem : y ∈ entries.filter fun p => (links.up? p).isSome :=
      List.mem_filter.mpr ⟨hy, hlinked⟩
    rw [hnone] at hmem
    simp at hmem
  next first rest hsome =>
    have hiff : ∀ z, z ∈ first :: rest ↔ z ∈ entries ∧ (links.up? z).isSome := by
      intro z
      rw [← hsome, List.mem_filter]
    obtain ⟨c, hfold, hcommon, hgreatest⟩ := foldlM_meet?_spec hup
      ((hiff first).mp List.mem_cons_self).2
      fun z hz => ((hiff z).mp (List.mem_cons_of_mem _ hz)).2
    have hyc := hcommon y ((hiff y).mpr ⟨hy, hlinked⟩)
    have hle := hyc.le hup
    refine ⟨c, by simp [hfold], by omega, hyc.linked hup hlinked, ?_, ?_⟩
    · exact fun z hz hlink => hcommon z ((hiff z).mpr ⟨hz, hlink⟩)
    · intro d hd
      apply hgreatest d
      intro z hz
      obtain ⟨hz, hlink⟩ := (hiff z).mp hz
      exact hd z hz hlink

/-! ## One round -/

/-- The links while a round is at position `p`: those of smaller positions are new. -/
def mixed (old new : Nat → Option Nat) (p : Nat) : Nat → Option Nat :=
  fun x => if x < p then new x else old x

theorem mixed_congr {new' : Nat → Option Nat} {p : Nat} (hagree : ∀ x < p, new x = new' x) :
    mixed old new p = mixed old new' p := by
  funext x
  unfold mixed
  split
  next h => exact hagree x h
  next => rfl

theorem mixed_grounded (hold : Grounded old) (hnew : Grounded new) {p : Nat} (hp : 0 < p)
    (hearlier : ∀ x < p, (new x).isSome) : Grounded (mixed old new p) where
  root := by simpa [mixed, hp] using hnew.root
  lower := by
    intro x q hxq hx
    unfold mixed at hxq
    split at hxq
    · exact hnew.lower x q hxq hx
    · exact hold.lower x q hxq hx
  linked := by
    intro x q hxq
    unfold mixed at hxq ⊢
    by_cases hq : q < p
    · rw [if_pos hq]
      exact hearlier q hq
    · rw [if_neg hq]
      split at hxq
      next hx =>
        have : q ≤ x := (OnChain.up hxq (.refl q)).le hnew
        omega
      next => exact hold.linked x q hxq

/-- A mixed chain that goes below `p` follows old links down to there, then new ones. -/
theorem OnChain.of_mixed {p y d : Nat} (hmixed : Grounded (mixed old new p))
    (h : OnChain (mixed old new p) y d) (hd : d < p) :
    ∃ e < p, OnChain old y e ∧ OnChain new e d := by
  induction h with
  | refl y => exact ⟨y, hd, .refl y, .refl y⟩
  | @up x q d link rest ih =>
      by_cases hx : x < p
      · refine ⟨x, hx, .refl x, (OnChain.up link rest).congr hmixed (fun z hz => ?_) hx⟩
        exact if_pos hz
      · obtain ⟨e, he, hqe, hed⟩ := ih hd
        refine ⟨e, he, .up ?_ hqe, hed⟩
        rwa [mixed, if_neg hx] at link

/-- An old chain goes below `p` at a position from where new links may be followed. -/
theorem OnChain.to_mixed {p y d : Nat} (hnew : Grounded new) (h : OnChain old y d) (hd : d < p) :
    ∃ e < p, OnChain old y e ∧ OnChain old e d ∧
      ∀ a, OnChain new e a → OnChain (mixed old new p) y a := by
  have hbelow : ∀ x < p, ∀ a, OnChain new x a → OnChain (mixed old new p) x a :=
    fun x hx a ha => ha.congr hnew (fun z hz => (if_pos hz).symm) hx
  induction h with
  | refl y => exact ⟨y, hd, .refl y, .refl y, hbelow y hd⟩
  | @up x q d link rest ih =>
      by_cases hx : x < p
      · exact ⟨x, hx, .refl x, .up link rest, hbelow x hx⟩
      · obtain ⟨e, he, hqe, hed, hfollow⟩ := ih hd
        refine ⟨e, he, .up link hqe, hed, fun a ha => .up ?_ (hfollow a ha)⟩
        rwa [mixed, if_neg hx]

/-- The position is linked to where the chains of its predecessors met when the round
was there. -/
def Placed (preds : List (List Nat)) (old new : Nat → Option Nat) (p : Nat) : Prop :=
  ∃ entries c, preds[p]? = some entries ∧ new p = some c ∧ c < p ∧
    Meets (mixed old new p) entries c

/-- Every position but the first has a smaller predecessor, and predecessors are
positions. -/
structure Ordered (preds : List (List Nat)) : Prop where
  nonempty : 0 < preds.length
  bound : ∀ (p : Nat) entries, preds[p]? = some entries → ∀ y ∈ entries, y < preds.length
  below : ∀ (p : Nat) entries, preds[p]? = some entries → 0 < p → ∃ y ∈ entries, y < p

/-- A round that has come to position `k`. -/
structure Midway (preds : List (List Nat)) (old new : Links) (k : Nat) : Prop where
  length : new.length = preds.length
  grounded : Grounded new.up?
  later : ∀ x, k ≤ x → new.up? x = old.up? x
  earlier : ∀ x < k, (new.up? x).isSome
  placed : ∀ p, 0 < p → p < k → Placed preds old.up? new.up? p

theorem Midway.step (hpreds : Ordered preds) {old new : Links} (hmid : Midway preds old new k)
    (hk : 0 < k) {entries : List Nat} (hentries : preds[k]? = some entries) :
    ∃ next, refine? entries new k = some next ∧ Midway preds old next (k + 1) := by
  have hlength : k < new.length := by
    rw [hmid.length]
    exact (List.getElem?_eq_some_iff.mp hentries).1
  obtain ⟨y, hy, hlt⟩ := hpreds.below k entries hentries hk
  obtain ⟨c, hrefine, hck, hc, hmeets⟩ :=
    refine?_spec hmid.grounded ⟨y, hy, hlt, hmid.earlier y hlt⟩
  have hother : ∀ x, x ≠ k → Links.up? (new.set k (some c)) x = new.up? x := by
    intro x hx
    rw [up?_set hlength, if_neg hx]
  have hself : Links.up? (new.set k (some c)) k = some c := by rw [up?_set hlength, if_pos rfl]
  -- While the round is at `k`, the links of larger positions are still the old ones.
  have hnow : mixed old.up? (Links.up? (new.set k (some c))) k = new.up? := by
    funext x
    unfold mixed
    split
    next h => exact hother x (by omega)
    next h => exact (hmid.later x (by omega)).symm
  refine ⟨_, hrefine, ?_⟩
  constructor
  case length => rw [List.length_set, hmid.length]
  case grounded => exact hmid.grounded.set hk hlength hck hc
  case later =>
    intro x hx
    rw [hother x (by omega)]
    exact hmid.later x (by omega)
  case earlier =>
    intro x hx
    by_cases hxk : x = k
    · rw [hxk, hself]
      rfl
    · rw [hother x hxk]
      exact hmid.earlier x (by omega)
  case placed =>
    intro p hp hpk
    by_cases heq : p = k
    · subst heq
      refine ⟨entries, c, hentries, hself, hck, ?_⟩
      rw [hnow]
      exact hmeets
    · obtain ⟨entries', c', hentries', hlink, hlt', hmeets'⟩ := hmid.placed p hp (by omega)
      refine ⟨entries', c', hentries', by rw [hother p heq]; exact hlink, hlt', ?_⟩
      rwa [mixed_congr fun x hx => hother x (by omega)]

theorem Midway.finish (hpreds : Ordered preds) {old new : Links} (hmid : Midway preds old new k)
    (hk : 0 < k) (hle : k ≤ preds.length) :
    ∃ last, (preds.zipIdx.drop k).foldlM (fun links (entries, p) => refine? entries links p) new =
      some last ∧ Midway preds old last preds.length := by
  induction hrest : preds.length - k generalizing k new with
  | zero =>
      obtain rfl : k = preds.length := by omega
      refine ⟨new, ?_, hmid⟩
      rw [List.drop_of_length_le (by simp)]
      rfl
  | succ rest ih =>
      have hlt : k < preds.length := by omega
      obtain ⟨next, hrefine, hnext⟩ := hmid.step hpreds hk (List.getElem?_eq_getElem hlt)
      obtain ⟨last, hfold, hlast⟩ := ih hnext (by omega) (by omega) (by omega)
      refine ⟨last, ?_, hlast⟩
      rw [List.drop_eq_getElem_cons (by simpa using hlt)]
      simp [hrefine, hfold]

theorem round?_spec (hpreds : Ordered preds) {old : Links} (hlength : old.length = preds.length)
    (hup : Grounded old.up?) :
    ∃ new, old.round? preds = some new ∧ Midway preds old new preds.length := by
  have hstart : Midway preds old old 1 := by
    refine ⟨hlength, hup, fun _ _ => rfl, ?_, ?_⟩
    · intro x hx
      obtain rfl : x = 0 := by omega
      rw [hup.root]
      rfl
    · intro p hp hp'
      omega
  exact hstart.finish hpreds (by omega) hpreds.nonempty

end Monolith.Links
