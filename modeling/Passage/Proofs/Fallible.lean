import Mathlib
import Passage.World.Basic

/-!
# Steps that may fail

Lowering, passes, code generation, runs of the machine and actions on an
environment are all steps of one form: from a state they reach another one, and
answer or fail. This module opens such steps at a state (`bind_apply` and its
companions) and says what it takes for an assertion to survive them.

`Ensures` is about answers, and `Spares` about failures. `Keeps` is about assertions that
hold after every step, also a failing one.
`Conducts` is about assertions that a failing step may break, as long as the
state it leaves is still related to the one it began in: that relation is what
undoing the step will need.
-/

namespace Passage

variable {ε σ α β : Type}

/-! ## Steps at a state -/

theorem bind_apply (x : ExceptT ε (StateM σ) α) (f : α → ExceptT ε (StateM σ) β) (s : σ) :
    (x >>= f) s = match x s with
      | (.ok a, s) => f a s
      | (.error e, s) => (.error e, s) := by
  show (match x s with | (a, s) => (ExceptT.bindCont f a) s) = _
  rcases x s with ⟨_ | _, s⟩ <;> rfl

/-- A step whose first part succeeds goes on behind it. -/
theorem bind_ok {x : ExceptT ε (StateM σ) α} {f : α → ExceptT ε (StateM σ) β} {s s' : σ} {a : α}
    (h : x s = (.ok a, s')) : (x >>= f) s = f a s' := by
  rw [bind_apply, h]

/-- A step that succeeds has parts that succeed. -/
theorem bind_eq_ok {x : ExceptT ε (StateM σ) α} {f : α → ExceptT ε (StateM σ) β} {s s'' : σ}
    {b : β} (h : (x >>= f) s = (.ok b, s'')) :
    ∃ a s', x s = (.ok a, s') ∧ f a s' = (.ok b, s'') := by
  rw [bind_apply] at h
  rcases hx : x s with ⟨e | a, s'⟩
  · rw [hx] at h
    exact absurd (congrArg Prod.fst h) (by simp)
  · rw [hx] at h
    exact ⟨a, s', rfl, h⟩

theorem pure_apply (a : α) (s : σ) : (pure a : ExceptT ε (StateM σ) α) s = (.ok a, s) := rfl

/-- A step that does nothing answers with its value. -/
theorem pure_eq_ok {a b : α} {s s' : σ}
    (h : (pure a : ExceptT ε (StateM σ) α) s = (.ok b, s')) : a = b ∧ s = s' := by
  obtain ⟨hvalue, hstate⟩ := Prod.mk.inj h
  exact ⟨Except.ok.inj hvalue, hstate⟩

theorem throw_apply (e : ε) (s : σ) : (throw e : ExceptT ε (StateM σ) α) s = (.error e, s) := rfl

theorem get_apply (s : σ) : (get : ExceptT ε (StateM σ) σ) s = (.ok s, s) := rfl

theorem set_apply (s s' : σ) : (set s' : ExceptT ε (StateM σ) PUnit) s = (.ok ⟨⟩, s') := rfl

theorem modify_apply (f : σ → σ) (s : σ) :
    (modify f : ExceptT ε (StateM σ) PUnit) s = (.ok ⟨⟩, f s) := rfl

/-- A step that cannot fail goes on with its value. -/
theorem state_bind_apply (x : StateM σ α) (f : α → StateM σ β) (s : σ) :
    (x >>= f) s = f (x s).1 (x s).2 := rfl

theorem state_get_apply (s : σ) : (get : StateM σ σ) s = (s, s) := rfl

theorem Transforming.symbols_apply (w : World) : Transforming.symbols w = (.ok w.symbols, w) := rfl

theorem Transforming.region_apply (w : World) :
    Transforming.region w = (.ok w.context.region, w) := rfl

/-- Telling a fault in other words does not make up an answer. -/
theorem ok_of_mapError {ε' : Type} {tell : ε → ε'} {x : Except ε α} {a : α}
    (h : x.mapError tell = .ok a) : x = .ok a := by
  cases x with
  | error e => exact absurd h nofun
  | ok b => exact congrArg Except.ok (Except.ok.inj h)

/-- What is told in other words is a fault. -/
theorem error_of_mapError {ε' : Type} {tell : ε → ε'} {x : Except ε α} {e : ε'}
    (h : x.mapError tell = .error e) : ∃ d, x = .error d ∧ e = tell d := by
  cases x with
  | error d => exact ⟨d, rfl, (Except.error.inj h).symm⟩
  | ok a => exact absurd h nofun

/-! ## What a step answers -/

/-- What the step answers, if it does not fail, satisfies `Q`. -/
def Ensures (Q : α → Prop) (m : ExceptT ε (StateM σ) α) : Prop :=
  ∀ s a s', m s = (.ok a, s') → Q a

namespace Ensures

variable {Q : α → Prop} {Q' : β → Prop}

theorem pure {a : α} (h : Q a) : Ensures Q (pure a : ExceptT ε (StateM σ) α) := by
  intro s a' s' ha
  rw [pure_apply] at ha
  exact Except.ok.inj (congrArg Prod.fst ha) ▸ h

theorem throw (e : ε) : Ensures Q (throw e : ExceptT ε (StateM σ) α) := by
  intro s a s' ha
  rw [throw_apply] at ha
  exact absurd (congrArg Prod.fst ha) nofun

theorem bind {x : ExceptT ε (StateM σ) α} {f : α → ExceptT ε (StateM σ) β} (hx : Ensures Q x)
    (hf : ∀ a, Q a → Ensures Q' (f a)) : Ensures Q' (x >>= f) := by
  intro s b s'' hb
  obtain ⟨a, s', ha, hfa⟩ := bind_eq_ok hb
  exact hf a (hx s a s' ha) s' b s'' hfa

/-- What a step answers behind another one. -/
theorem behind {x : ExceptT ε (StateM σ) α} {f : α → ExceptT ε (StateM σ) β}
    (hf : ∀ a, Ensures Q' (f a)) : Ensures Q' (x >>= f) :=
  bind (Q := fun _ => True) (fun _ _ _ _ => trivial) fun a _ => hf a

end Ensures

/-! ## How a step fails -/

/-- From a state of `P`, the step does not fail badly, and is back in `P` unless it fails. -/
def Spares (P : σ → Prop) (bad : ε → Prop) (m : ExceptT ε (StateM σ) α) : Prop :=
  ∀ s, P s → (∀ e, (m s).1 = .error e → ¬ bad e) ∧ ∀ a, (m s).1 = .ok a → P (m s).2

namespace Spares

variable {P : σ → Prop} {bad : ε → Prop}

theorem pure (a : α) : Spares P bad (pure a : ExceptT ε (StateM σ) α) :=
  fun _ h => ⟨nofun, fun _ _ => h⟩

theorem throw {e : ε} (he : ¬ bad e) : Spares P bad (throw e : ExceptT ε (StateM σ) α) :=
  fun _ _ => ⟨fun _ h => Except.error.inj h ▸ he, nofun⟩

theorem get : Spares P bad (get : ExceptT ε (StateM σ) σ) := fun _ h => ⟨nofun, fun _ _ => h⟩

/-- A step behind another one may use what the first one answers. -/
theorem bind_of {Q : α → Prop} {x : ExceptT ε (StateM σ) α} {f : α → ExceptT ε (StateM σ) β}
    (hx : Spares P bad x) (hQ : ∀ s, P s → ∀ a, (x s).1 = .ok a → Q a)
    (hf : ∀ a, Q a → Spares P bad (f a)) : Spares P bad (x >>= f) := by
  intro s hs
  obtain ⟨herror, hok⟩ := hx s hs
  have hanswer := hQ s hs
  rw [bind_apply]
  rcases hxs : x s with ⟨e | a, s'⟩ <;> rw [hxs] at herror hok hanswer
  · exact ⟨fun e' he => herror e' (congrArg Except.error (Except.error.inj he)), nofun⟩
  · exact hf a (hanswer a rfl) s' (hok a rfl)

theorem bind {x : ExceptT ε (StateM σ) α} {f : α → ExceptT ε (StateM σ) β}
    (hx : Spares P bad x) (hf : ∀ a, Spares P bad (f a)) : Spares P bad (x >>= f) :=
  bind_of (Q := fun _ => True) hx (fun _ _ _ _ => trivial) fun a _ => hf a

end Spares

/-! ## Assertions that hold after every step -/

/-- The assertion survives the step, whether or not it fails. -/
def Keeps (P : σ → Prop) (m : ExceptT ε (StateM σ) α) : Prop := ∀ s, P s → P (m s).2

namespace Keeps

variable {P : σ → Prop}

theorem pure (a : α) : Keeps P (pure a : ExceptT ε (StateM σ) α) := fun _ h => h

theorem throw (e : ε) : Keeps P (throw e : ExceptT ε (StateM σ) α) := fun _ h => h

theorem get : Keeps P (get : ExceptT ε (StateM σ) σ) := fun _ h => h

theorem modify {f : σ → σ} (hf : ∀ s, P s → P (f s)) :
    Keeps P (modify f : ExceptT ε (StateM σ) PUnit) := hf

theorem bind {x : ExceptT ε (StateM σ) α} {f : α → ExceptT ε (StateM σ) β}
    (hx : Keeps P x) (hf : ∀ a, Keeps P (f a)) : Keeps P (x >>= f) := by
  intro s hs
  have hx' := hx s hs
  rw [bind_apply]
  rcases hxs : x s with ⟨e | a, s'⟩ <;> rw [hxs] at hx'
  · exact hx'
  · exact hf a s' hx'

/-- Steps in a row keep what each of them keeps. -/
theorem forM_of_mem {f : α → ExceptT ε (StateM σ) PUnit} {as : List α}
    (hf : ∀ a ∈ as, Keeps P (f a)) : Keeps P (as.forM f) := by
  induction as with
  | nil => exact Keeps.pure _
  | cons a as ih =>
    exact Keeps.bind (hf a List.mem_cons_self) fun _ =>
      ih fun a ha => hf a (List.mem_cons_of_mem _ ha)

end Keeps

/-! ## Assertions that a failing step may break -/

/-- The step moves along `R` from every state of `P`, and is back in `P` unless it fails. -/
def Conducts (P : σ → Prop) (R : σ → σ → Prop) (m : ExceptT ε (StateM σ) α) : Prop :=
  ∀ s, P s → R s (m s).2 ∧ ∀ a, (m s).1 = .ok a → P (m s).2

/-- A relation between states that steps in sequence may move along. -/
structure Advances (R : σ → σ → Prop) : Prop where
  refl : ∀ s, R s s
  trans : ∀ {s t u}, R s t → R t u → R s u

namespace Conducts

variable {P : σ → Prop} {R : σ → σ → Prop}

theorem pure (hR : Advances R) (a : α) : Conducts P R (pure a : ExceptT ε (StateM σ) α) :=
  fun s hs => ⟨hR.refl s, fun _ _ => hs⟩

theorem throw (hR : Advances R) (e : ε) : Conducts P R (throw e : ExceptT ε (StateM σ) α) :=
  fun s hs => ⟨hR.refl s, fun _ _ => hs⟩

theorem get (hR : Advances R) : Conducts P R (get : ExceptT ε (StateM σ) σ) :=
  fun s hs => ⟨hR.refl s, fun _ _ => hs⟩

theorem bind (hR : Advances R) {x : ExceptT ε (StateM σ) α}
    {f : α → ExceptT ε (StateM σ) β} (hx : Conducts P R x) (hf : ∀ a, Conducts P R (f a)) :
    Conducts P R (x >>= f) := by
  intro s hs
  obtain ⟨hmove, hok⟩ := hx s hs
  rw [bind_apply]
  rcases hxs : x s with ⟨e | a, s'⟩ <;> rw [hxs] at hmove hok
  · exact ⟨hmove, fun _ h => absurd h (by simp)⟩
  · obtain ⟨hmove', hok'⟩ := hf a s' (hok a rfl)
    exact ⟨hR.trans hmove hmove', hok'⟩

/-- Steps in a row conduct what each of them conducts. -/
theorem forM_of_mem (hR : Advances R) {f : α → ExceptT ε (StateM σ) PUnit} {as : List α}
    (hf : ∀ a ∈ as, Conducts P R (f a)) : Conducts P R (as.forM f) := by
  induction as with
  | nil => exact Conducts.pure hR _
  | cons a as ih =>
    exact Conducts.bind hR (hf a List.mem_cons_self) fun _ =>
      ih fun a ha => hf a (List.mem_cons_of_mem _ ha)

/-- What a step keeps, it conducts along the relation that says so. -/
theorem of_keeps {m : ExceptT ε (StateM σ) α} (h : Keeps P m) :
    Conducts P (fun s s' => P s → P s') m :=
  fun s hs => ⟨fun _ => h s hs, fun _ _ => h s hs⟩

theorem keeps {m : ExceptT ε (StateM σ) α} (h : Conducts P (fun s s' => P s → P s') m) :
    Keeps P m :=
  fun s hs => (h s hs).1 hs

end Conducts

/-- To keep an assertion is to move along a relation. -/
theorem keeping_advances (P : σ → Prop) : Advances fun s s' => P s → P s' where
  refl _ := id
  trans h h' := h' ∘ h

end Passage
