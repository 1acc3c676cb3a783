/-!
# Histories

A store answers calls, gives marks of its present state, and goes back to a mark. `Undoable.run`
plays a history, which is a list of such deeds. To go back to a mark drops the marks that were
given after it, as properly nested pairs do; the mark itself stays, and may be gone back to again.

What an undoable store is worth is said with the states that it stands for. Calls only lead on from
a state, and to go back to the mark of a state, from one that it leads to, gives that state
(`Undoable.Lawful`). Then every history leads on from where it began, whatever was undone on the
way (`Undoable.Lawful.run`).
-/

namespace Passage

variable {σ κ μ α : Type}

/-- One deed in the history of a store. -/
inductive Deed (κ : Type) where
  | call (op : κ)
  | mark
  /-- Goes back to a mark, the latest being at depth zero; does nothing if there is none. -/
  | back (depth : Nat)

/-- A store whose calls can be undone. -/
structure Undoable (σ κ μ : Type) where
  call : σ → κ → σ
  mark : σ → μ
  back : σ → μ → σ

/-- A store with the marks that can be gone back to, the latest first. -/
structure Session (σ μ : Type) where
  store : σ
  marks : List μ

namespace Undoable

def step (u : Undoable σ κ μ) (s : Session σ μ) : Deed κ → Session σ μ
  | .call op => { s with store := u.call s.store op }
  | .mark => { s with marks := u.mark s.store :: s.marks }
  | .back depth =>
      match s.marks.drop depth with
      | [] => s
      | mark :: earlier => ⟨u.back s.store mark, mark :: earlier⟩

/-- The store that a history leaves, if there were no marks before it. -/
def run (u : Undoable σ κ μ) (s : σ) (deeds : List (Deed κ)) : σ :=
  (deeds.foldl u.step ⟨s, []⟩).store

/-! ## Views of a store -/

section

variable {τ ν : Type} {u : Undoable σ κ μ} {v : Undoable τ κ ν} {f : σ → τ} {g : μ → ν}

theorem step_view (hcall : ∀ s op, f (u.call s op) = v.call (f s) op)
    (hmark : ∀ s, g (u.mark s) = v.mark (f s))
    (hback : ∀ s m, f (u.back s m) = v.back (f s) (g m)) (s : Session σ μ) (deed : Deed κ) :
    v.step ⟨f s.store, s.marks.map g⟩ deed =
      ⟨f (u.step s deed).store, (u.step s deed).marks.map g⟩ := by
  cases deed with
  | call op => simp only [step, hcall]
  | mark => simp only [step, List.map_cons, hmark]
  | back depth =>
    simp only [step, ← List.map_drop]
    cases s.marks.drop depth with
    | nil => rfl
    | cons m earlier => simp only [List.map_cons, hback]

/-- What the deeds do to a view of the store that they respect, they do in every history. -/
theorem run_view (hcall : ∀ s op, f (u.call s op) = v.call (f s) op)
    (hmark : ∀ s, g (u.mark s) = v.mark (f s))
    (hback : ∀ s m, f (u.back s m) = v.back (f s) (g m)) (s : σ) (deeds : List (Deed κ)) :
    v.run (f s) deeds = f (u.run s deeds) := by
  have hsessions : ∀ (deeds : List (Deed κ)) (s : Session σ μ),
      deeds.foldl v.step ⟨f s.store, s.marks.map g⟩ =
        ⟨f (deeds.foldl u.step s).store, (deeds.foldl u.step s).marks.map g⟩ := by
    intro deeds
    induction deeds with
    | nil => exact fun _ => rfl
    | cons deed deeds ih =>
      intro s
      rw [List.foldl_cons, step_view hcall hmark hback, ih, List.foldl_cons]
  exact congrArg Session.store (hsessions deeds ⟨s, []⟩)

end

/-! ## What undoing needs -/

/-- What makes undoing work. A store stands for a state and a mark is of one; calls lead on from
the state, and going back to a mark of it, from wherever it led, gives it again. -/
structure Lawful (u : Undoable σ κ μ) (Leads : α → α → Prop) (Stands : σ → α → Prop)
    (Marks : μ → α → Prop) : Prop where
  refl : ∀ a, Leads a a
  trans : ∀ {a b c}, Leads a b → Leads b c → Leads a c
  call : ∀ {s a}, Stands s a → ∀ op, ∃ b, Leads a b ∧ Stands (u.call s op) b
  mark : ∀ {s a}, Stands s a → Marks (u.mark s) a
  back : ∀ {s m a b}, Stands s b → Marks m a → Leads a b → Stands (u.back s m) a

/-- Each mark is of a state on the way from the base to the state of the mark after it, and the
latest on the way to the present state. -/
inductive Backed (Leads : α → α → Prop) (Marks : μ → α → Prop) (base : α) : α → List μ → Prop
  | base {a : α} : Leads base a → Backed Leads Marks base a []
  | mark {a b : α} {m : μ} {marks : List μ} :
      Backed Leads Marks base a marks → Marks m a → Leads a b →
      Backed Leads Marks base b (m :: marks)

section

variable {u : Undoable σ κ μ} {Leads : α → α → Prop} {Stands : σ → α → Prop}
  {Marks : μ → α → Prop} {base a b : α} {marks : List μ}

theorem Backed.leads (hu : u.Lawful Leads Stands Marks) (h : Backed Leads Marks base a marks) :
    Leads base a := by
  induction h with
  | base h => exact h
  | mark _ _ hab ih => exact hu.trans ih hab

/-- Marks stay good when the present state leads on. -/
theorem Backed.on (hu : u.Lawful Leads Stands Marks) (h : Backed Leads Marks base a marks)
    (hab : Leads a b) : Backed Leads Marks base b marks := by
  cases h with
  | base h => exact .base (hu.trans h hab)
  | mark h hm hca => exact .mark h hm (hu.trans hca hab)

/-- Every mark is of a state from which the present one was reached. -/
theorem Backed.drop (hu : u.Lawful Leads Stands Marks) (h : Backed Leads Marks base b marks)
    {depth : Nat} {m : μ} {earlier : List μ} (hdrop : marks.drop depth = m :: earlier) :
    ∃ a, Leads a b ∧ Marks m a ∧ Backed Leads Marks base a (m :: earlier) := by
  -- The induction is on the marks; those above the depth are passed over.
  induction h generalizing depth with
  | base => simp at hdrop
  | @mark a b latest marks hbacked hm hab ih =>
    cases depth with
    | zero =>
      obtain ⟨rfl, rfl⟩ := List.cons.inj hdrop
      exact ⟨a, hab, hm, .mark hbacked hm (hu.refl a)⟩
    | succ depth =>
      obtain ⟨c, hca, hmc, hbacked'⟩ := ih hdrop
      exact ⟨c, hu.trans hca hab, hmc, hbacked'⟩

/-- The session stands for a state that was reached from the base, and so do its marks. -/
def Kept (Leads : α → α → Prop) (Stands : σ → α → Prop) (Marks : μ → α → Prop) (base : α)
    (s : Session σ μ) : Prop :=
  ∃ a, Stands s.store a ∧ Backed Leads Marks base a s.marks

theorem Lawful.step (hu : u.Lawful Leads Stands Marks) {s : Session σ μ}
    (h : Kept Leads Stands Marks base s) (deed : Deed κ) :
    Kept Leads Stands Marks base (u.step s deed) := by
  obtain ⟨a, hstands, hbacked⟩ := h
  cases deed with
  | call op =>
    obtain ⟨b, hab, hstands'⟩ := hu.call hstands op
    exact ⟨b, hstands', hbacked.on hu hab⟩
  | mark => exact ⟨a, hstands, .mark hbacked (hu.mark hstands) (hu.refl a)⟩
  | back depth =>
    simp only [Undoable.step]
    split
    · exact ⟨a, hstands, hbacked⟩
    · next hdrop =>
      obtain ⟨b, hba, hmark, hbacked'⟩ := hbacked.drop hu hdrop
      exact ⟨b, hu.back hstands hmark hba, hbacked'⟩

/-- Whatever is called, marked and undone, the store stands for a state that the first led to. -/
theorem Lawful.run (hu : u.Lawful Leads Stands Marks) {s : σ} (h : Stands s a)
    (deeds : List (Deed κ)) : ∃ b, Leads a b ∧ Stands (u.run s deeds) b := by
  -- Stores alone do not carry the induction: what a mark is worth is known of the session.
  have hkept : ∀ (deeds : List (Deed κ)) (s : Session σ μ), Kept Leads Stands Marks a s →
      Kept Leads Stands Marks a (deeds.foldl u.step s) := by
    intro deeds
    induction deeds with
    | nil => exact fun _ hs => hs
    | cons deed deeds ih => exact fun s hs => ih _ (hu.step hs deed)
  obtain ⟨b, hstands, hbacked⟩ := hkept deeds ⟨s, []⟩ ⟨a, h, .base (hu.refl a)⟩
  exact ⟨b, hbacked.leads hu, hstands⟩

end

end Undoable

end Passage
