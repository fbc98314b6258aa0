import Monolith.Failure

/-! # Computations that may fail

A computation in several steps succeeds if all of its steps do, and else fails as the first one
that does. What a failure leaves makes no difference to whether there is one, and which.
-/

namespace Monolith

theorem bind_eq_ok {ε α β : Type} {x : Except ε α} {f : α → Except ε β} {b : β} :
    (x >>= f) = .ok b ↔ ∃ a, x = .ok a ∧ f a = .ok b := by
  cases x with
  | error e => simp [bind, Except.bind]
  | ok a => simp [bind, Except.bind]

theorem bind_eq_error {ε α β : Type} {x : Except ε α} {f : α → Except ε β} {e : ε} :
    (x >>= f) = .error e ↔ x = .error e ∨ ∃ a, x = .ok a ∧ f a = .error e := by
  cases x with
  | error e' => simp [bind, Except.bind]
  | ok a => simp [bind, Except.bind]

theorem map_eq_error {ε α β : Type} {x : Except ε α} {f : α → β} {e : ε} :
    x.map f = .error e ↔ x = .error e := by
  cases x <;> simp [Except.map]

section

variable {ε ε' α β : Type}

@[simp] theorem mapError_ok (f : ε → ε') (a : α) : Except.mapError f (.ok a) = .ok a := rfl

@[simp] theorem mapError_error (f : ε → ε') (e : ε) :
    Except.mapError f (.error e : Except ε α) = .error (f e) := rfl

@[simp] theorem mapError_eq_ok {x : Except ε α} {f : ε → ε'} {a : α} :
    x.mapError f = .ok a ↔ x = .ok a := by
  cases x <;> simp

theorem mapError_eq_error {x : Except ε α} {f : ε → ε'} {e : ε'} :
    x.mapError f = .error e ↔ ∃ e', x = .error e' ∧ f e' = e := by
  cases x <;> simp

/-- A view of failures is one of the failures of all steps. -/
theorem mapError_bind (x : Except ε α) (k : α → Except ε β) (f : ε → ε') :
    (x >>= k).mapError f = x.mapError f >>= fun a => (k a).mapError f := by
  cases x <;> rfl

end

theorem faulting_eq_ok {α : Type} {x : Except Fault α} {a : α} :
    faulting x = .ok a ↔ x = .ok a := mapError_eq_ok

/-- What every step preserves holds at the end of a run that succeeds. -/
theorem foldlM_induction {ε α β : Type} {step : β → α → Except ε β} {entries : List α}
    {start last : β} (P : β → Prop)
    (hstep : ∀ a ∈ entries, ∀ b next, P b → step b a = .ok next → P next) (hstart : P start)
    (h : entries.foldlM step start = .ok last) : P last := by
  induction entries generalizing start with
  | nil =>
      obtain rfl := Except.ok.inj h
      exact hstart
  | cons a entries ih =>
      rw [List.foldlM_cons] at h
      obtain ⟨next, hnext, h⟩ := bind_eq_ok.mp h
      obtain ⟨hfirst, hstep⟩ := List.forall_mem_cons.mp hstep
      exact ih hstep (hfirst start next hstart hnext) h

/-- A loop succeeds if each step does and keeps what the next ones need. -/
theorem exists_foldlM_eq_ok {ε α β : Type} {step : β → α → Except ε β} {entries : List α}
    {start : β} (P : β → Prop)
    (hstep : ∀ a ∈ entries, ∀ b, P b → ∃ next, step b a = .ok next ∧ P next) (hstart : P start) :
    ∃ last, entries.foldlM step start = .ok last ∧ P last := by
  induction entries generalizing start with
  | nil => exact ⟨start, rfl, hstart⟩
  | cons a entries ih =>
      obtain ⟨hfirst, hstep⟩ := List.forall_mem_cons.mp hstep
      obtain ⟨next, hnext, hkept⟩ := hfirst start hstart
      obtain ⟨last, hlast, hP⟩ := ih hstep hkept
      refine ⟨last, ?_, hP⟩
      rw [List.foldlM_cons]
      exact bind_eq_ok.mpr ⟨next, hnext, hlast⟩

/-! ## What failures leave -/

section

variable {α β γ : Type}

@[simp] theorem leaving_eq_ok {left : α} {x : Except Failure β} {b : β} :
    leaving left x = .ok b ↔ x = .ok b := mapError_eq_ok

/-- What is left says nothing about the failure. -/
@[simp] theorem failure_leaving (left : α) (x : Except Failure β) :
    (leaving left x).mapError Aborted.failure = x := by
  cases x <;> rfl

@[simp] theorem failure_map (x : Except (Aborted α) γ) (f : α → β) :
    (x.mapError (Aborted.map f)).mapError Aborted.failure = x.mapError Aborted.failure := by
  cases x <;> rfl

end

/-! ## Kinds of failures -/

/-- The computation fails only in ways of the given kind. -/
def FailsFor {ε α : Type} (allowed : ε → Prop) (x : Except ε α) : Prop :=
  ∀ failure, x = .error failure → allowed failure

namespace FailsFor

variable {ε ε' α β : Type} {allowed : ε → Prop}

theorem ok (a : α) : FailsFor allowed (.ok a) := by
  intro _ h
  cases h

theorem error {failure : ε} (h : allowed failure) :
    FailsFor allowed (.error failure : Except ε α) := by
  intro _ hfailure
  cases hfailure
  exact h

theorem reject {allowed : Failure → Prop} {reason : Rejection} (h : allowed (.rejected reason)) :
    FailsFor allowed (reject reason : Except Failure α) := .error h

theorem mono {more : ε → Prop} {x : Except ε α} (h : FailsFor allowed x)
    (hmore : ∀ failure, allowed failure → more failure) : FailsFor more x :=
  fun failure hfailure => hmore failure (h failure hfailure)

/-- The kind of a failure that is seen in some way. -/
theorem mapError {x : Except ε' α} {view : ε' → ε}
    (h : FailsFor (fun failure => allowed (view failure)) x) :
    FailsFor allowed (x.mapError view) := by
  intro failure hfailure
  obtain ⟨other, hother, rfl⟩ := mapError_eq_error.mp hfailure
  exact h other hother

theorem leaving {allowed : Aborted β → Prop} {left : β} {x : Except Failure α}
    (h : FailsFor (fun failure => allowed { failure, left }) x) :
    FailsFor allowed (leaving left x) := h.mapError

theorem faulting {allowed : Failure → Prop} {x : Except Fault α}
    (h : FailsFor (fun fault => allowed (.fault fault)) x) : FailsFor allowed (faulting x) :=
  h.mapError

theorem bind_of_ok {x : Except ε α} {f : α → Except ε β} (hx : FailsFor allowed x)
    (hf : ∀ a, x = .ok a → FailsFor allowed (f a)) : FailsFor allowed (x >>= f) := by
  cases x with
  | ok a => exact hf a rfl
  | error failure => exact fun other h => hx other (congrArg _ (Except.error.inj h))

theorem bind {x : Except ε α} {f : α → Except ε β} (hx : FailsFor allowed x)
    (hf : ∀ a, FailsFor allowed (f a)) : FailsFor allowed (x >>= f) :=
  hx.bind_of_ok fun a _ => hf a

/-- A loop fails as its steps do, as long as they keep what holds at the start. -/
theorem foldlM_of_ok {P : β → Prop} {step : β → α → Except ε β} {entries : List α}
    (hstep : ∀ a ∈ entries, ∀ b, P b → FailsFor allowed (step b a) ∧ ∀ b', step b a = .ok b' → P b')
    {start : β} (hstart : P start) : FailsFor allowed (entries.foldlM step start) := by
  induction entries generalizing start with
  | nil => exact .ok start
  | cons a entries ih =>
      rw [List.foldlM_cons]
      obtain ⟨hfails, hkeeps⟩ := hstep a List.mem_cons_self start hstart
      refine hfails.bind_of_ok fun b hb => ih ?_ (hkeeps b hb)
      exact fun a ha => hstep a (List.mem_cons_of_mem _ ha)

theorem foldlM {step : β → α → Except ε β} (hstep : ∀ b a, FailsFor allowed (step b a))
    (entries : List α) (start : β) : FailsFor allowed (entries.foldlM step start) :=
  foldlM_of_ok (P := fun _ => True) (fun a _ b _ => ⟨hstep b a, fun _ _ => trivial⟩) trivial

theorem mapM {f : α → Except ε β} (hf : ∀ a, FailsFor allowed (f a)) (entries : List α) :
    FailsFor allowed (entries.mapM f) := by
  induction entries with
  | nil => exact .ok []
  | cons a entries ih =>
      rw [List.mapM_cons]
      exact (hf a).bind fun b => ih.bind fun rest => .ok (b :: rest)

end FailsFor

/-! ## Working through a list -/

/-- A list is not worked through because an entry of it fails; those before it do not. -/
theorem first_of_mapM_eq_error {ε α β : Type} {f : α → Except ε β} {entries : List α} {e : ε}
    (h : entries.mapM f = .error e) :
    ∃ front a back, entries = front ++ a :: back ∧ (∀ b ∈ front, ∃ c, f b = .ok c) ∧
      f a = .error e := by
  induction entries with
  | nil => cases h
  | cons a entries ih =>
      rw [List.mapM_cons] at h
      rcases bind_eq_error.mp h with hfirst | ⟨b, hb, h⟩
      · exact ⟨[], a, entries, rfl, List.forall_mem_nil _, hfirst⟩
      · rcases bind_eq_error.mp h with hrest | ⟨bs, _, h⟩
        · obtain ⟨front, other, back, rfl, hfront, hfails⟩ := ih hrest
          exact ⟨a :: front, other, back, rfl, List.forall_mem_cons.mpr ⟨⟨b, hb⟩, hfront⟩, hfails⟩
        · cases h

theorem exists_of_mapM_eq_error {ε α β : Type} {f : α → Except ε β} {entries : List α} {e : ε}
    (h : entries.mapM f = .error e) : ∃ a ∈ entries, f a = .error e := by
  obtain ⟨front, a, back, rfl, _, hfails⟩ := first_of_mapM_eq_error h
  exact ⟨a, List.mem_append_right front List.mem_cons_self, hfails⟩

section

variable {σ ε α β : Type} {f : α → StateT σ (Except ε) β} {entries : List α} {results : List β}
  {s s' : σ}

/-- The rest of the entries goes on from the state that the first one leaves. -/
theorem exists_of_mapM_cons_run {a : α} (h : ((a :: entries).mapM f).run s = .ok (results, s')) :
    ∃ b next rest, (f a).run s = .ok (b, next) ∧
      (entries.mapM f).run next = .ok (rest, s') ∧ results = b :: rest := by
  rw [List.mapM_cons] at h
  obtain ⟨⟨b, next⟩, hfirst, h⟩ := bind_eq_ok.mp h
  obtain ⟨⟨rest, last⟩, hrest, h⟩ := bind_eq_ok.mp h
  obtain ⟨rfl, rfl⟩ := Prod.mk.inj (Except.ok.inj h)
  exact ⟨b, next, rest, hfirst, hrest, rfl⟩

variable (h : (entries.mapM f).run s = .ok (results, s'))
include h

/-- What is kept from each entry to its result is kept from the entries to the results. -/
theorem map_eq_of_mapM_run {γ : Type} {view : β → γ} {old : α → γ}
    (hf : ∀ a s b s', (f a).run s = .ok (b, s') → view b = old a) :
    results.map view = entries.map old := by
  induction entries generalizing results s with
  | nil =>
      obtain ⟨rfl, _⟩ := Prod.mk.inj (Except.ok.inj h)
      rfl
  | cons a entries ih =>
      obtain ⟨b, next, rest, hfirst, hrest, rfl⟩ := exists_of_mapM_cons_run h
      rw [List.map_cons, List.map_cons, hf a s b next hfirst, ih hrest]

/-- What holds of the state at the start and is kept holds in the end, and what each step then
says of its result holds of all results. -/
theorem forall_of_mapM_run {P : σ → Prop} {Q : β → Prop} (hs : P s)
    (hf : ∀ a ∈ entries, ∀ s b s', P s → (f a).run s = .ok (b, s') → P s' ∧ Q b) :
    P s' ∧ ∀ b ∈ results, Q b := by
  induction entries generalizing results s with
  | nil =>
      obtain ⟨rfl, rfl⟩ := Prod.mk.inj (Except.ok.inj h)
      exact ⟨hs, List.forall_mem_nil _⟩
  | cons a entries ih =>
      obtain ⟨b, next, rest, hfirst, hrest, rfl⟩ := exists_of_mapM_cons_run h
      obtain ⟨hnext, hb⟩ := hf a List.mem_cons_self s b next hs hfirst
      obtain ⟨hlast, hresults⟩ :=
        ih hrest hnext fun a ha => hf a (List.mem_cons_of_mem _ ha)
      exact ⟨hlast, List.forall_mem_cons.mpr ⟨hb, hresults⟩⟩

theorem rel_of_mapM_run {R : σ → σ → Prop} (hrefl : ∀ s, R s s)
    (htrans : ∀ {s next last}, R s next → R next last → R s last)
    (hf : ∀ a s b s', (f a).run s = .ok (b, s') → R s s') : R s s' := by
  refine (forall_of_mapM_run (P := R s) (Q := fun _ => True) h (hrefl s) ?_).1
  exact fun a _ next b last hkept hrun => ⟨htrans hkept (hf a next b last hrun), trivial⟩

/-- Each result comes of the entry at its place, from some state. -/
theorem exists_of_mapM_run {index : Nat} {a : α} (ha : entries[index]? = some a) :
    ∃ b t t', results[index]? = some b ∧ (f a).run t = .ok (b, t') := by
  induction entries generalizing results s index with
  | nil => cases ha
  | cons first entries ih =>
      obtain ⟨b, next, rest, hfirst, hrest, rfl⟩ := exists_of_mapM_cons_run h
      cases index with
      | zero =>
          obtain rfl := Option.some.inj ha
          exact ⟨b, s, next, rfl, hfirst⟩
      | succ index => exact ih hrest ha

theorem length_mapM_run : results.length = entries.length := by
  have hmap : results.map (fun _ => ()) = entries.map fun _ => () :=
    map_eq_of_mapM_run h fun _ _ _ _ _ => rfl
  simpa using congrArg List.length hmap

end

end Monolith
