/-
Computations with checked accesses. Such a computation ends with a result, with an error, or not at all, when an
access goes beyond its range. Where every access is within its range it is the plain computation, which is
shown step by step along its binds.
-/

namespace ModelCount

/-- An outcome that may be an error, or missing because an access went beyond its range. -/
abbrev Checked (ε : Type) : Type → Type := ExceptT ε Option

namespace Checked

variable {ε ε' α β : Type}

/-- A step that agrees with its plain version, before another one that does. -/
theorem run_bind {x : Checked ε α} {y : Except ε α} {k : α → Checked ε β} {l : α → Except ε β} (hx : x.run = some y)
    (hk : ∀ a, y = .ok a → (k a).run = some (l a)) : (x >>= k).run = some (y >>= l) := by
  rw [ExceptT.run_bind, hx]
  cases y with
  | error err => rfl
  | ok a => exact hk a rfl

theorem run_bind_lift {y : Except ε α} {k : α → Checked ε β} {l : α → Except ε β}
    (hk : ∀ a, y = .ok a → (k a).run = some (l a)) : ((liftM y : Checked ε α) >>= k).run = some (y >>= l) :=
  run_bind rfl hk

/-- A checked access that stays within its range. -/
theorem run_read {x : Option α} {a : α} (hx : x = some a) : (liftM x : Checked ε α).run = some (.ok a) := by
  subst hx
  rfl

theorem run_bind_read {x : Option α} {a : α} (hx : x = some a) (k : α → Checked ε β) :
    ((liftM x : Checked ε α) >>= k).run = (k a).run := by
  subst hx
  rfl

theorem run_adapt {x : Checked ε α} {y : Except ε α} (hx : x.run = some y) (g : ε → ε') :
    (ExceptT.adapt g x).run = some (y.mapError g) := by
  show Except.mapError g <$> x.run = _
  rw [hx]
  rfl

end Checked

end ModelCount
