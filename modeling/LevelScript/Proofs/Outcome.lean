import LevelScript.Machine.Run

/-!
# How a computation ends

`x.Ends m ok err` says what holds after `x` has run on `m`: `ok` of a value, `err` of an error. A
computation that was cut short has not ended, and nothing is said of it.
-/

namespace LevelScript

namespace Exec

def Ends (x : Exec α) (m : Machine) (ok : α → Machine → Prop) (err : RunError → Machine → Prop) :
    Prop :=
  match x m with
  | .ok a m' => ok a m'
  | .error (.raised e) m' => err e m'
  | .error .outOfFuel _ => True

section
variable {α β : Type} {x : Exec α} {f : α → Exec β} {m : Machine}

theorem Ends.mono {P P' : α → Machine → Prop} {E E' : RunError → Machine → Prop}
    (h : x.Ends m P E) (hP : ∀ a m', P a m' → P' a m') (hE : ∀ e m', E e m' → E' e m') :
    x.Ends m P' E' := by
  unfold Ends at *
  split at h
  · exact hP _ _ h
  · exact hE _ _ h
  · trivial

theorem ends_iff {P : α → Machine → Prop} {E : RunError → Machine → Prop} :
    x.Ends m P E ↔ (∀ a m', x m = .ok a m' → P a m') ∧ ∀ e m', x m = .error (.raised e) m' → E e m' := by
  unfold Ends
  split <;> simp_all

/-- Whether `x` gives a value on `m`, and it and the machine then are such. -/
def succeeds (x : Exec α) (m : Machine) (accepts : α → Machine → Bool) : Bool :=
  match x m with
  | .ok a m' => accepts a m'
  | .error _ _ => false

theorem of_succeeds {p : α → Machine → Bool} (h : x.succeeds m p = true) :
    ∃ a m', x m = .ok a m' ∧ p a m' = true := by
  unfold succeeds at h
  split at h
  case h_1 a m' hx => exact ⟨a, m', hx, h⟩
  case h_2 => cases h

theorem ends_any : x.Ends m (fun _ _ => True) (fun _ _ => True) := by simp [ends_iff]

theorem ends_bind {Q : β → Machine → Prop} {E : RunError → Machine → Prop} :
    (x >>= f).Ends m Q E ↔ x.Ends m (fun a m' => (f a).Ends m' Q E) E := by
  simp only [Ends, bind, EStateM.bind]
  cases x m with
  | ok a m' => rfl
  | error e m' => cases e <;> rfl

theorem ends_map {g : α → β} {Q : β → Machine → Prop} {E : RunError → Machine → Prop} :
    (g <$> x).Ends m Q E ↔ x.Ends m (fun a m' => Q (g a) m') E := by
  simp only [Ends, Functor.map, EStateM.map]
  cases x m with
  | ok a m' => rfl
  | error e m' => cases e <;> rfl

theorem Ends.bind {P : α → Machine → Prop} {Q : β → Machine → Prop} {E E' : RunError → Machine → Prop}
    (hx : x.Ends m P E') (hf : ∀ a m', P a m' → (f a).Ends m' Q E) (hE : ∀ e m', E' e m' → E e m') :
    (x >>= f).Ends m Q E :=
  ends_bind.mpr (hx.mono hf hE)

theorem ends_congr {y : Exec α} {m' : Machine} {P : α → Machine → Prop} {E : RunError → Machine → Prop}
    (h : x m = y m') : x.Ends m P E ↔ y.Ends m' P E := by
  rw [Ends, Ends, h]

theorem bind_ok {a : α} {s : Machine} (hx : x m = .ok a s) : (x >>= f) m = f a s := by
  simp only [bind, EStateM.bind, hx]

theorem attempt_ok {a : α} {s : Machine} (hx : x m = .ok a s) : attempt x m = .ok (.ok a) s := by
  rw [attempt, hx]

theorem attempt_raised {e : RunError} {s : Machine} (hx : x m = .error (.raised e) s) :
    attempt x m = .ok (.error e) s := by
  rw [attempt, hx]

/-- What gives a value after another computation has given one. -/
theorem bind_eq_ok {b : β} {m' : Machine} (h : (x >>= f) m = .ok b m') : ∃ a m₁, x m = .ok a m₁ ∧
    f a m₁ = .ok b m' := by
  simp only [bind, EStateM.bind] at h
  split at h
  case h_1 a m₁ hx => exact ⟨a, m₁, hx, h⟩
  case h_2 => cases h

theorem ends_bind_ok {Q : β → Machine → Prop} {E : RunError → Machine → Prop} {a : α} {m' : Machine}
    (hx : x m = .ok a m') : (x >>= f).Ends m Q E ↔ (f a).Ends m' Q E := by
  rw [Ends, Ends, bind_ok hx]

theorem ends_modify {Q : α → Machine → Prop} {E : RunError → Machine → Prop} {g : Machine → Machine} :
    (modify g >>= fun _ => x).Ends m Q E ↔ x.Ends (g m) Q E :=
  ends_bind_ok rfl

theorem ends_modifyGet {Q : α → Machine → Prop} {E : RunError → Machine → Prop} {g : Machine → α × Machine} :
    Ends (modifyGet g) m Q E ↔ Q (g m).1 (g m).2 :=
  Iff.rfl

theorem modifyGet_eq {g : Machine → α × Machine} : (modifyGet g : Exec α) m = .ok (g m).1 (g m).2 := rfl

theorem ends_get {Q : β → Machine → Prop} {E : RunError → Machine → Prop} {f : Machine → Exec β} :
    (get >>= f).Ends m Q E ↔ (f m).Ends m Q E :=
  Iff.rfl

theorem get_bind {f : Machine → Exec β} : (get >>= f) m = f m m := rfl

theorem ends_attempt {Q : Except RunError α → Machine → Prop} {E : RunError → Machine → Prop} :
    (attempt x).Ends m Q E ↔ x.Ends m (fun a => Q (.ok a)) (fun e => Q (.error e)) := by
  simp only [Ends, attempt]
  cases x m with
  | ok a m' => rfl
  | error e m' => cases e <;> rfl

theorem Ends.ok {P : α → Machine → Prop} {E : RunError → Machine → Prop} {a : α} {m' : Machine}
    (h : x.Ends m P E) (hx : x m = .ok a m') : P a m' := (ends_iff.mp h).1 a m' hx

theorem Ends.raised {P : α → Machine → Prop} {E : RunError → Machine → Prop} {e : RunError}
    {m' : Machine} (h : x.Ends m P E) (hx : x m = .error (.raised e) m') : E e m' := (ends_iff.mp h).2 e m' hx

theorem Ends.and {P P' : α → Machine → Prop} {E E' : RunError → Machine → Prop} (h : x.Ends m P E)
    (h' : x.Ends m P' E') : x.Ends m (fun a m' => P a m' ∧ P' a m') (fun e m' => E e m' ∧ E' e m') :=
  ends_iff.mpr ⟨fun _ _ hx => ⟨h.ok hx, h'.ok hx⟩, fun _ _ hx => ⟨h.raised hx, h'.raised hx⟩⟩

end

end Exec

end LevelScript
