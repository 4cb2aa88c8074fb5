import Scl.Proofs.Expansion.Confinement

/-!
# Two expansions side by side

`Follows lenient P x y` says of two computations that, from scopes related by `P`, they have the same
outcome: both have no result, or both the same error, or both the same result, and then their scopes are
related by `P` again. If the comparison is lenient, nothing is asked of the second computation once the
first one has failed; the first one may then be the one with less to look up.

There is a rule for each way to put computations together. `Follows.inScope` is the one that needs the
computations to be confined: both sides get back the scopes they had, so these are related as before.
-/

namespace Scl

variable {α β γ δ ε : Type} {lenient : Prop}

/-- Results that are both good and related by `R`, or the same error, or an error that is forgiven. -/
inductive Agree (lenient : Prop) (R : α → β → Prop) : Except ε α → Except ε β → Prop
  | ok {a : α} {b : β} : R a b → Agree lenient R (.ok a) (.ok b)
  | error (e : ε) : Agree lenient R (.error e) (.error e)
  | forgiven {e : ε} {y : Except ε β} : lenient → Agree lenient R (.error e) y

namespace Agree

theorem refl (x : Except ε α) : Agree lenient Eq x x := by
  cases x with
  | ok a => exact .ok rfl
  | error e => exact .error e

theorem bind {R : α → β → Prop} {S : γ → δ → Prop} {x : Except ε α} {y : Except ε β}
    {f : α → Except ε γ} {g : β → Except ε δ} (h : Agree lenient R x y)
    (hfg : ∀ a b, R a b → Agree lenient S (f a) (g b)) : Agree lenient S (x >>= f) (y >>= g) := by
  cases h with
  | ok hab => exact hfg _ _ hab
  | error e => exact .error e
  | forgiven hl => exact .forgiven hl

/-- Equal results stay equal under a function. -/
theorem map {x y : Except ε α} (h : Agree lenient Eq x y) (f : α → β) :
    Agree lenient Eq (f <$> x) (f <$> y) := by
  cases h with
  | ok hab => exact .ok (congrArg f hab)
  | error e => exact .error e
  | forgiven hl => exact .forgiven hl

theorem mapError {R : α → β → Prop} {ε' : Type} {x : Except ε α} {y : Except ε β} (h : Agree lenient R x y)
    (f : ε → ε') : Agree lenient R (x.mapError f) (y.mapError f) := by
  cases h with
  | ok hab => exact .ok hab
  | error e => exact .error (f e)
  | forgiven hl => exact .forgiven hl

end Agree

namespace Expansion

/-- Outcomes of two computations, with the scopes that they leave. -/
inductive RunsAgree (lenient : Prop) (P : Scopes → Scopes → Prop) :
    Option (Except Error α × Scopes) → Option (Except Error α × Scopes) → Prop
  | ok (a : α) {s t : Scopes} : P s t → RunsAgree lenient P (some (.ok a, s)) (some (.ok a, t))
  | error (e : Error) (s t : Scopes) : RunsAgree lenient P (some (.error e, s)) (some (.error e, t))
  | exhausted : RunsAgree lenient P none none
  | forgiven {e : Error} {s : Scopes} {second : Option (Except Error α × Scopes)} :
    lenient → RunsAgree lenient P (some (.error e, s)) second

/-- Computations that have the same outcome from scopes related by `P`, and keep them related. -/
def Follows (lenient : Prop) (P : Scopes → Scopes → Prop) (x y : Expansion α) : Prop :=
  ∀ s t, P s t → RunsAgree lenient P (x s) (y t)

namespace RunsAgree

variable {P : Scopes → Scopes → Prop} {first second : Option (Except Error α × Scopes)}

/-- Strictly compared computations have equal results. -/
theorem map_fst_eq (h : RunsAgree False P first second) : first.map Prod.fst = second.map Prod.fst := by
  cases h with
  | ok a hP => rfl
  | error e s t => rfl
  | exhausted => rfl
  | forgiven hl => exact hl.elim

/-- However computations are compared, the second one has the result of the first one. -/
theorem map_fst_eq_ok (h : RunsAgree lenient P first second) {a : α}
    (hfirst : first.map Prod.fst = some (.ok a)) : second.map Prod.fst = some (.ok a) := by
  cases h with
  | ok b hP => exact hfirst
  | error e s t => cases hfirst
  | exhausted => cases hfirst
  | forgiven hl => cases hfirst

end RunsAgree

namespace Follows

variable {P : Scopes → Scopes → Prop}

theorem pure (a : α) : Follows lenient P (Pure.pure a : Expansion α) (Pure.pure a) :=
  fun _ _ hP => .ok a hP

theorem bind {x y : Expansion α} {f g : α → Expansion β} (h : Follows lenient P x y)
    (hfg : ∀ a, Follows lenient P (f a) (g a)) : Follows lenient P (x >>= f) (y >>= g) := by
  intro s t hP
  have hxy := h s t hP
  rw [bind_apply, bind_apply]
  generalize x s = first at hxy
  generalize y t = second at hxy
  cases hxy with
  | ok a hP' => exact hfg a _ _ hP'
  | error e s' t' => exact .error e s' t'
  | exhausted => exact .exhausted
  | forgiven hl => exact .forgiven hl

theorem throw (e : Error) : Follows lenient P (MonadExcept.throw e : Expansion α) (MonadExcept.throw e) :=
  fun s t _ => .error e s t

theorem fail (location : Location) (cause : Cause) :
    Follows lenient P (fail location cause : Expansion α) (Expansion.fail location cause) :=
  throw _

theorem ite {c c' : Bool} (hc : c = c') {x x' y y' : Expansion α} (h : Follows lenient P x y)
    (h' : Follows lenient P x' y') : Follows lenient P (if c then x else x') (if c' then y else y') := by
  subst hc
  cases c with
  | true => exact h
  | false => exact h'

theorem ask (location : Location) {read read' : Scopes → Except Cause α}
    (h : ∀ s t, P s t → Agree lenient Eq (read s) (read' t)) :
    Follows lenient P (ask location read) (Expansion.ask location read') := by
  intro s t hP
  have hread := h s t hP
  rw [ask_apply, ask_apply]
  generalize read s = first at hread
  generalize read' t = second at hread
  cases hread with
  | ok heq => exact heq ▸ .ok _ hP
  | error cause => exact .error _ s t
  | forgiven hl => exact .forgiven hl

theorem ofCause (location : Location) (x : Except Cause α) :
    Follows lenient P (ofCause location x) (Expansion.ofCause location x) := by
  cases x with
  | ok a => exact pure a
  | error cause => exact fail location cause

/-- Results that need not be equal, only related, and what is done with them. -/
theorem bind_ofExcept {R : α → β → Prop} {x : Except Error α} {y : Except Error β} {f : α → Expansion γ}
    {g : β → Expansion γ} (h : Agree lenient R x y) (hfg : ∀ a b, R a b → Follows lenient P (f a) (g b)) :
    Follows lenient P (ofExcept x >>= f) (ofExcept y >>= g) := by
  intro s t hP
  cases h with
  | ok hab => exact hfg _ _ hab s t hP
  | error e => exact .error e s t
  | forgiven hl => exact .forgiven hl

theorem nested (location : Location) {x y : Expansion α} (h : Follows lenient P x y) :
    Follows lenient P (nested location x) (Expansion.nested location y) := by
  intro s t hP
  have hxy := h s t hP
  rw [nested_apply, nested_apply]
  generalize x s = first at hxy
  generalize y t = second at hxy
  cases hxy with
  | ok a hP' => exact .ok a hP'
  | error e s' t' => exact .error _ s' t'
  | exhausted => exact .exhausted
  | forgiven hl => exact .forgiven hl

theorem modify {f g : Scopes → Scopes} (h : ∀ s t, P s t → P (f s) (g t)) :
    Follows lenient P (modify f : Expansion PUnit) (modify g) :=
  fun s t hP => .ok PUnit.unit (h s t hP)

/-- Computations in scopes of their own give back the scopes that they found, so it does not matter how
the new scopes are related. -/
theorem inScope {i j : Nat} {inheritance inheritance' : Inheritance} {body body' : Nat → Expansion α}
    (hb : Confined body) (hb' : Confined body') (hP : ∀ s t, P s t → 0 < s.count ∧ 0 < t.count)
    (h : ∀ s t, P s t → ∃ Q, RunsAgree lenient Q (body s.count (s.enter inheritance i))
      (body' t.count (t.enter inheritance' j))) :
    Follows lenient P (inScope inheritance i body) (Expansion.inScope inheritance' j body') := by
  intro s t hst
  obtain ⟨Q, hbody⟩ := h s t hst
  rw [inScope_apply hb inheritance i (hP s t hst).1, inScope_apply hb' inheritance' j (hP s t hst).2]
  generalize body s.count (s.enter inheritance i) = first at hbody
  generalize body' t.count (t.enter inheritance' j) = second at hbody
  cases hbody with
  | ok a hQ => exact .ok a hst
  | error e s' t' => exact .error e s t
  | exhausted => exact .exhausted
  | forgiven hl => exact .forgiven hl

end Follows

end Expansion

end Scl
