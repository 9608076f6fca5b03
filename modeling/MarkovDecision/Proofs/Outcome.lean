import Mathlib.Logic.Relation

/-!
# Computations that may fail

Three ways of learning from a success: it went through what stands before it, it
can be read off a test that has been run, and a run of successes is a run of
whatever each of them does. A check is a computation that says only whether it has
succeeded, and checks in a row succeed together.

Programs that keep a state besides – the runs of a model do, and it is the source of
their randomness – are functions of that state. Two of them in a row hand the state
on, and a fault of the first ends both. A second state, kept on top of the first, is
handed on along with it.

A program that works on a state and fails half-way leaves behind what it has written
so far (`EStateM`). It is *atomic* if it leaves behind nothing, and a program that
makes its tests first is: reading leaves the state alone, and if what comes after
cannot fail, there is no fault to come (`OnlyReads.bind_atomic`, `NeverFails.atomic`).
-/

namespace MarkovDecision

variable {ε α β : Type}

/-- A result that is there is a success. -/
theorem eq_ok_of_toOption {x : Except ε α} {a : α} (h : x.toOption = some a) : x = .ok a := by
  cases x with
  | error e => cases h
  | ok b => exact congrArg Except.ok (Option.some.inj h)

/-- What two computations in a row return went through the first. -/
theorem exists_of_bind_eq_ok {x : Except ε α} {f : α → Except ε β} {b : β}
    (h : x >>= f = .ok b) : ∃ a, x = .ok a ∧ f a = .ok b := by
  cases x with
  | error fault => cases h
  | ok a => exact ⟨a, rfl, h⟩

theorem bind_eq_ok_iff {x : Except ε α} {f : α → Except ε β} {b : β} :
    x >>= f = .ok b ↔ ∃ a, x = .ok a ∧ f a = .ok b := by
  refine ⟨exists_of_bind_eq_ok, ?_⟩
  rintro ⟨a, rfl, h⟩
  exact h

/-- **A run of computations fails where one of them does**, after successes only. -/
theorem foldlM_eq_error_iff {f : β → α → Except ε β} {xs : List α} {b : β} {e : ε} :
    xs.foldlM f b = .error e ↔ ∃ before x behind mid, xs = before ++ x :: behind ∧
      before.foldlM f b = .ok mid ∧ f mid x = .error e := by
  constructor
  · intro h
    induction xs generalizing b with
    | nil => cases h
    | cons y rest ih =>
      rw [List.foldlM_cons] at h
      cases hy : f b y with
      | error fault =>
        rw [hy] at h
        exact ⟨[], y, rest, b, rfl, rfl, hy.trans h⟩
      | ok next =>
        rw [hy] at h
        obtain ⟨before, x, behind, mid, rfl, hbefore, hx⟩ := ih h
        refine ⟨y :: before, x, behind, mid, rfl, ?_, hx⟩
        rw [List.foldlM_cons, hy]
        exact hbefore
  · rintro ⟨before, x, behind, mid, rfl, hbefore, hx⟩
    have hrest : (x :: behind).foldlM f mid = .error e := by
      rw [List.foldlM_cons, hx]
      rfl
    rw [List.foldlM_append, hbefore]
    exact hrest

open Relation in
/-- **A run of successes** is a run of what each of them does. -/
theorem reflTransGen_of_foldlM {r : β → β → Prop} {f : β → α → Except ε β}
    (hf : ∀ b x b', f b x = .ok b' → r b b') {xs : List α} {b b' : β}
    (h : xs.foldlM f b = .ok b') : ReflTransGen r b b' := by
  induction xs generalizing b with
  | nil =>
    obtain rfl := Except.ok.inj h
    exact .refl
  | cons x rest ih =>
    rw [List.foldlM_cons] at h
    obtain ⟨b₁, hx, hrest⟩ := exists_of_bind_eq_ok h
    exact (ih hrest).head (hf b x b₁ hx)

/-! ### Checks -/

section Checks

variable {c : Prop} [Decidable c] {fault : ε} {x y : Except ε Unit}

/-- A check that fails unless a condition holds. -/
theorem check_eq_ok_iff : (if c then .ok () else .error fault : Except ε Unit) = .ok () ↔ c := by
  by_cases h : c
  · rw [if_pos h]
    exact ⟨fun _ => h, fun _ => rfl⟩
  · rw [if_neg h]
    constructor
    · rintro ⟨⟩
    · intro hc
      exact absurd hc h

/-- A check that fails where a condition holds. -/
theorem check_not_eq_ok_iff :
    (if c then .error fault else .ok () : Except ε Unit) = .ok () ↔ ¬c := by
  rw [← ite_not]
  exact check_eq_ok_iff

/-- Two checks in a row pass together. -/
theorem bind_check_eq_ok_iff : (x >>= fun _ => y) = .ok () ↔ x = .ok () ∧ y = .ok () := by
  rcases x with fault | ⟨⟩
  · constructor
    · rintro ⟨⟩
    · rintro ⟨⟨⟩, -⟩
  · exact ⟨fun h => ⟨rfl, h⟩, fun h => h.2⟩

end Checks

/-! ### Programs with a state -/

section Programs

variable {W : Type} {w w' mid : W} {x : ExceptT ε (StateM W) α} {f : α → ExceptT ε (StateM W) β}

/-- A program that succeeds hands its result and its state on. -/
theorem run_bind_of_ok {a : α} (hx : x w = (.ok a, mid)) : (x >>= f) w = f a mid := by
  have hbind : (x >>= f) w = ExceptT.bindCont f (x w).1 (x w).2 := rfl
  rw [hbind, hx]
  rfl

/-- A program that fails is the end. -/
theorem run_bind_of_error {e : ε} (hx : x w = (.error e, mid)) :
    (x >>= f) w = (.error e, mid) := by
  have hbind : (x >>= f) w = ExceptT.bindCont f (x w).1 (x w).2 := rfl
  rw [hbind, hx]
  rfl

/-- What two programs in a row return went through the first. -/
theorem exists_of_run_bind {b : β} (h : (x >>= f) w = (.ok b, w')) :
    ∃ a mid, x w = (.ok a, mid) ∧ f a mid = (.ok b, w') := by
  rcases hx : x w with ⟨e | a, mid⟩
  · rw [run_bind_of_error hx] at h
    cases h
  · rw [run_bind_of_ok hx] at h
    exact ⟨a, mid, rfl, h⟩

/-- A program that cannot fail hands its result and its state on. -/
theorem run_bind {y : StateM W α} {g : α → StateM W β} {a : α} (hy : y w = (a, mid)) :
    (y >>= g) w = g a mid := by
  have hbind : (y >>= g) w = g (y w).1 (y w).2 := rfl
  rw [hbind, hy]

/-- A program that cannot fail succeeds. -/
theorem run_lift {y : StateM W α} {a : α} (hy : y w = (a, w')) :
    (liftM y : ExceptT ε (StateM W) α) w = (.ok a, w') := by
  have hlift : (liftM y : ExceptT ε (StateM W) α) w = (.ok (y w).1, (y w).2) := rfl
  rw [hlift, hy]

/-- A program whose faults are renamed. -/
theorem run_adapt {ε' : Type} (rename : ε → ε') (x : ExceptT ε (StateM W) α) (w : W) :
    ExceptT.adapt rename x w = ((x w).1.mapError rename, (x w).2) := rfl

/-- A program returns what it returns when its faults are renamed. -/
theorem run_of_run_adapt {ε' : Type} {rename : ε → ε'} {a : α}
    (h : ExceptT.adapt rename x w = (.ok a, w')) : x w = (.ok a, w') := by
  rw [run_adapt] at h
  rcases hx : x w with ⟨e | b, mid⟩
  · rw [hx] at h
    cases h
  · rw [hx] at h
    cases h
    rfl

end Programs

/-! ### Programs with two states -/

section Pairs

variable {D W : Type} {d d' : D} {w w' : W} {a : α}

/-- A program that succeeds hands its result and both states on. -/
theorem run_bind_of_ok_both {x : ExceptT ε (StateT D (StateM W)) α}
    {f : α → ExceptT ε (StateT D (StateM W)) β} (hx : x d w = ((.ok a, d'), w')) :
    (x >>= f) d w = f a d' w' := by
  have hbind : (x >>= f) d w = ExceptT.bindCont f (x d w).1.1 (x d w).1.2 (x d w).2 := rfl
  rw [hbind, hx]
  rfl

/-- A program that cannot fail succeeds. -/
theorem run_lift_both {y : StateT D (StateM W) α} (hy : y d w = ((a, d'), w')) :
    (liftM y : ExceptT ε (StateT D (StateM W)) α) d w = ((.ok a, d'), w') := by
  have hlift : (liftM y : ExceptT ε (StateT D (StateM W)) α) d w
      = ((.ok (y d w).1.1, (y d w).1.2), (y d w).2) := rfl
  rw [hlift, hy]

end Pairs

/-! ### Programs that may stop half-way -/

section Halfway

variable {σ : Type} {x : EStateM ε σ α} {f : α → EStateM ε σ β} {s mid s' : σ}

/-- A program that succeeds hands its result and its state on. -/
theorem bind_apply_of_ok {a : α} (hx : x s = .ok a mid) : (x >>= f) s = f a mid := by
  have hbind : (x >>= f) s = EStateM.bind x f s := rfl
  rw [hbind, EStateM.bind, hx]

/-- A program that fails is the end. -/
theorem bind_apply_of_error {e : ε} (hx : x s = .error e mid) : (x >>= f) s = .error e mid := by
  have hbind : (x >>= f) s = EStateM.bind x f s := rfl
  rw [hbind, EStateM.bind, hx]

theorem discard_apply_of_ok {a : α} (hx : x s = .ok a mid) : discard x s = .ok () mid := by
  have hmap : discard x s = EStateM.map (fun _ => ()) x s := rfl
  rw [hmap, EStateM.map, hx]

theorem discard_apply_of_error {e : ε} (hx : x s = .error e mid) :
    discard x s = .error e mid := by
  have hmap : discard x s = EStateM.map (fun _ => ()) x s := rfl
  rw [hmap, EStateM.map, hx]

/-- A program that fails leaves the state as it was. -/
def Atomic (x : EStateM ε σ α) : Prop := ∀ s e s', x s = .error e s' → s' = s

/-- A program leaves the state as it was, whether it fails or not. -/
structure OnlyReads (x : EStateM ε σ α) : Prop where
  /-- It does if it fails. -/
  atomic : Atomic x
  /-- It does if it succeeds. -/
  eq_of_ok : ∀ s a s', x s = .ok a s' → s' = s

/-- A program succeeds whatever the state. -/
def NeverFails (x : EStateM ε σ α) : Prop := ∀ s e s', x s ≠ .error e s'

theorem NeverFails.atomic (h : NeverFails x) : Atomic x :=
  fun s e s' hx => absurd hx (h s e s')

theorem Atomic.discard (h : Atomic x) : Atomic (discard x) := by
  intro s e s' hdiscard
  cases hrun : x s with
  | ok a mid =>
    rw [discard_apply_of_ok hrun] at hdiscard
    cases hdiscard
  | error fault mid =>
    rw [discard_apply_of_error hrun] at hdiscard
    cases hdiscard
    exact h s e s' hrun

/-- **Reading first** leaves it to the rest whether the state is kept. -/
theorem OnlyReads.bind_atomic (hx : OnlyReads x) (hf : ∀ a, Atomic (f a)) : Atomic (x >>= f) := by
  intro s e s' h
  cases hrun : x s with
  | ok a mid =>
    rw [bind_apply_of_ok hrun] at h
    exact (hf a mid e s' h).trans (hx.eq_of_ok s a mid hrun)
  | error fault mid =>
    rw [bind_apply_of_error hrun] at h
    cases h
    exact hx.atomic s e s' hrun

theorem OnlyReads.bind (hx : OnlyReads x) (hf : ∀ a, OnlyReads (f a)) : OnlyReads (x >>= f) := by
  refine ⟨hx.bind_atomic fun a => (hf a).atomic, fun s b s' h => ?_⟩
  cases hrun : x s with
  | ok a mid =>
    rw [bind_apply_of_ok hrun] at h
    exact ((hf a).eq_of_ok mid b s' h).trans (hx.eq_of_ok s a mid hrun)
  | error e mid =>
    rw [bind_apply_of_error hrun] at h
    cases h

theorem OnlyReads.pure (a : α) : OnlyReads (Pure.pure a : EStateM ε σ α) := by
  refine ⟨fun s e s' h => ?_, fun s b s' h => ?_⟩
  · cases h
  · cases h
    rfl

/-- Tests in a row only read if each of them does. -/
theorem OnlyReads.foldlM {g : β → α → EStateM ε σ β} (hg : ∀ b a, OnlyReads (g b a))
    (xs : List α) (b : β) : OnlyReads (xs.foldlM g b) := by
  induction xs generalizing b with
  | nil => exact OnlyReads.pure b
  | cons a rest ih =>
    rw [List.foldlM_cons]
    exact (hg b a).bind ih

theorem NeverFails.bind (hx : NeverFails x) (hf : ∀ a, NeverFails (f a)) :
    NeverFails (x >>= f) := by
  intro s e s' h
  cases hrun : x s with
  | ok a mid =>
    rw [bind_apply_of_ok hrun] at h
    exact hf a mid e s' h
  | error fault mid => exact hx s fault mid hrun

theorem NeverFails.modify (g : σ → σ) : NeverFails (modify g : EStateM ε σ PUnit) := by
  rintro s e s' ⟨⟩

/-- Writing many things does not fail if writing one does not. -/
theorem NeverFails.forM {g : α → EStateM ε σ PUnit} (hg : ∀ a, NeverFails (g a)) (xs : List α) :
    NeverFails (xs.forM g) := by
  induction xs with
  | nil => rintro s e s' ⟨⟩
  | cons a rest ih => exact (hg a).bind fun _ => ih

end Halfway

end MarkovDecision
