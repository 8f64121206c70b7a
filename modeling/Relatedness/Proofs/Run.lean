import Relatedness.Session

/-! How an operation ends: it succeeds with a value or fails with a cause, and leaves a state
either way. A sequence is taken apart by its steps, so that a proof about a long operation
follows the order in which the operation does its work. -/

namespace Relatedness

section Runs

variable {ε σ α β : Type}

/-- A sequence gives a result through those of its steps. -/
theorem bind_eq_ok_iff {x : Except ε α} {f : α → Except ε β} {b : β} :
    x >>= f = .ok b ↔ ∃ a, x = .ok a ∧ f a = .ok b := by
  cases x <;> simp [bind, Except.bind]

/-- What an operation ends with from a state, and the state that it leaves. -/
def outcome (x : ExceptT ε (StateM σ) α) (s : σ) : Except ε α × σ := x.run.run s

/-- From `s` the operation succeeds with `a` and leaves `t`. -/
def Succeeds (x : ExceptT ε (StateM σ) α) (s : σ) (a : α) (t : σ) : Prop :=
  outcome x s = (.ok a, t)

/-- From `s` the operation fails with `e` and leaves `t`. -/
def Fails (x : ExceptT ε (StateM σ) α) (s : σ) (e : ε) (t : σ) : Prop :=
  outcome x s = (.error e, t)

theorem succeeds_or_fails (x : ExceptT ε (StateM σ) α) (s : σ) :
    (∃ a t, Succeeds x s a t) ∨ ∃ e t, Fails x s e t := by
  unfold Succeeds Fails
  cases h : outcome x s with
  | mk r t =>
    cases r with
    | ok a => exact .inl ⟨a, t, rfl⟩
    | error e => exact .inr ⟨e, t, rfl⟩

theorem exists_succeeds {x : ExceptT ε (StateM σ) α} {s : σ}
    (h : (outcome x s).1.isOk = true) : ∃ a, Succeeds x s a (outcome x s).2 := by
  rcases succeeds_or_fails x s with ⟨a, t, hx⟩ | ⟨e, t, hx⟩
  · refine ⟨a, ?_⟩
    rwa [show outcome x s = _ from hx]
  · rw [show outcome x s = _ from hx] at h
    cases h

theorem exists_fails {x : ExceptT ε (StateM σ) α} {s : σ}
    (h : (outcome x s).1.isOk = false) : ∃ e, Fails x s e (outcome x s).2 := by
  rcases succeeds_or_fails x s with ⟨a, t, hx⟩ | ⟨e, t, hx⟩
  · rw [show outcome x s = _ from hx] at h
    cases h
  · refine ⟨e, ?_⟩
    rwa [show outcome x s = _ from hx]

/-- Whether the operation succeeds, with a value and a state that pass a test. -/
def succeedsWith (x : ExceptT ε (StateM σ) α) (s : σ) (test : α → σ → Bool) : Bool :=
  match outcome x s with
  | (.ok a, t) => test a t
  | (.error _, _) => false

/-- Whether the operation fails, with a cause and a state that pass a test. -/
def failsWith (x : ExceptT ε (StateM σ) α) (s : σ) (test : ε → σ → Bool) : Bool :=
  match outcome x s with
  | (.ok _, _) => false
  | (.error e, t) => test e t

theorem exists_of_succeedsWith {x : ExceptT ε (StateM σ) α} {s : σ} {test : α → σ → Bool}
    (h : succeedsWith x s test = true) : ∃ a t, Succeeds x s a t ∧ test a t = true := by
  unfold succeedsWith at h
  rcases succeeds_or_fails x s with ⟨a, t, hx⟩ | ⟨e, t, hx⟩ <;>
    rw [show outcome x s = _ from hx] at h
  · exact ⟨a, t, hx, h⟩
  · cases h

theorem exists_of_failsWith {x : ExceptT ε (StateM σ) α} {s : σ} {test : ε → σ → Bool}
    (h : failsWith x s test = true) : ∃ e t, Fails x s e t ∧ test e t = true := by
  unfold failsWith at h
  rcases succeeds_or_fails x s with ⟨a, t, hx⟩ | ⟨e, t, hx⟩ <;>
    rw [show outcome x s = _ from hx] at h
  · cases h
  · exact ⟨e, t, hx, h⟩

/-- An operation ends in one way only. -/
theorem Succeeds.unique {x : ExceptT ε (StateM σ) α} {s t u : σ} {a b : α}
    (h : Succeeds x s a t) (h' : Succeeds x s b u) : a = b ∧ t = u := by
  unfold Succeeds at h h'
  rw [h] at h'
  cases h'
  exact ⟨rfl, rfl⟩

theorem Succeeds.not_fails {x : ExceptT ε (StateM σ) α} {s t u : σ} {a : α} {e : ε}
    (h : Succeeds x s a t) : ¬Fails x s e u := by
  intro h'
  unfold Succeeds at h
  unfold Fails at h'
  rw [h] at h'
  cases h'

theorem Fails.unique {x : ExceptT ε (StateM σ) α} {s t u : σ} {e e' : ε} (h : Fails x s e t)
    (h' : Fails x s e' u) : e = e' ∧ t = u := by
  unfold Fails at h h'
  rw [h] at h'
  cases h'
  exact ⟨rfl, rfl⟩

/-- A step that looks at how an operation ended. -/
theorem Succeeds.run_bind {x : ExceptT ε (StateM σ) α} {f : Except ε α → StateM σ β} {s t : σ}
    {a : α} (h : Succeeds x s a t) : (x.run >>= f).run s = (f (.ok a)).run t := by
  have hrun : x.run.run s = (.ok a, t) := h
  rw [StateT.run_bind, hrun]
  rfl

theorem Fails.run_bind {x : ExceptT ε (StateM σ) α} {f : Except ε α → StateM σ β} {s t : σ}
    {e : ε} (h : Fails x s e t) : (x.run >>= f).run s = (f (.error e)).run t := by
  have hrun : x.run.run s = (.error e, t) := h
  rw [StateT.run_bind, hrun]
  rfl

@[simp] theorem succeeds_pure {s t : σ} {a b : α} :
    Succeeds (pure a : ExceptT ε (StateM σ) α) s b t ↔ b = a ∧ t = s := by
  unfold Succeeds
  constructor
  · intro h
    cases h
    exact ⟨rfl, rfl⟩
  · intro hboth
    obtain ⟨rfl, rfl⟩ := hboth
    rfl

@[simp] theorem fails_pure {s t : σ} {a : α} {e : ε} :
    ¬Fails (pure a : ExceptT ε (StateM σ) α) s e t := by
  intro h
  cases h

@[simp] theorem succeeds_throw {s t : σ} {a : α} {e : ε} :
    ¬Succeeds (throw e : ExceptT ε (StateM σ) α) s a t := by
  intro h
  cases h

@[simp] theorem fails_throw {s t : σ} {e e' : ε} :
    Fails (throw e : ExceptT ε (StateM σ) α) s e' t ↔ e' = e ∧ t = s := by
  unfold Fails
  constructor
  · intro h
    cases h
    exact ⟨rfl, rfl⟩
  · intro hboth
    obtain ⟨rfl, rfl⟩ := hboth
    rfl

theorem outcome_bind (x : ExceptT ε (StateM σ) α) (f : α → ExceptT ε (StateM σ) β) (s : σ) :
    outcome (x >>= f) s = match outcome x s with
      | (.ok a, t) => outcome (f a) t
      | (.error e, t) => (.error e, t) := by
  simp only [outcome, ExceptT.run, StateT.run, bind, ExceptT.bind, ExceptT.mk, StateT.bind]
  cases x s with
  | mk r t => cases r <;> rfl

@[simp] theorem succeeds_bind {x : ExceptT ε (StateM σ) α} {f : α → ExceptT ε (StateM σ) β}
    {s t : σ} {b : β} :
    Succeeds (x >>= f) s b t ↔ ∃ a u, Succeeds x s a u ∧ Succeeds (f a) u b t := by
  unfold Succeeds
  rw [outcome_bind]
  cases h : outcome x s with
  | mk r u => cases r <;> simp [and_assoc]

@[simp] theorem fails_bind {x : ExceptT ε (StateM σ) α} {f : α → ExceptT ε (StateM σ) β}
    {s t : σ} {e : ε} :
    Fails (x >>= f) s e t ↔
      Fails x s e t ∨ ∃ a u, Succeeds x s a u ∧ Fails (f a) u e t := by
  unfold Fails Succeeds
  rw [outcome_bind]
  cases h : outcome x s with
  | mk r u => cases r <;> simp [and_assoc]

theorem outcome_tryCatch (x : ExceptT ε (StateM σ) α) (f : ε → ExceptT ε (StateM σ) α) (s : σ) :
    outcome (tryCatch x f) s = match outcome x s with
      | (.ok a, t) => (.ok a, t)
      | (.error e, t) => outcome (f e) t := by
  simp only [outcome, ExceptT.run, StateT.run, tryCatch, tryCatchThe, MonadExceptOf.tryCatch,
    ExceptT.tryCatch, ExceptT.mk, bind, StateT.bind]
  cases x s with
  | mk r t => cases r <;> rfl

@[simp] theorem succeeds_tryCatch {x : ExceptT ε (StateM σ) α} {f : ε → ExceptT ε (StateM σ) α}
    {s t : σ} {a : α} :
    Succeeds (tryCatch x f) s a t ↔
      Succeeds x s a t ∨ ∃ e u, Fails x s e u ∧ Succeeds (f e) u a t := by
  unfold Succeeds Fails
  rw [outcome_tryCatch]
  cases h : outcome x s with
  | mk r u => cases r <;> simp [and_assoc]

@[simp] theorem fails_tryCatch {x : ExceptT ε (StateM σ) α} {f : ε → ExceptT ε (StateM σ) α}
    {s t : σ} {e : ε} :
    Fails (tryCatch x f) s e t ↔ ∃ e' u, Fails x s e' u ∧ Fails (f e') u e t := by
  unfold Fails
  rw [outcome_tryCatch]
  cases h : outcome x s with
  | mk r u => cases r <;> simp [and_assoc]

@[simp] theorem succeeds_ite {c : Prop} [Decidable c] {x y : ExceptT ε (StateM σ) α} {s t : σ}
    {a : α} : Succeeds (if c then x else y) s a t ↔
      c ∧ Succeeds x s a t ∨ ¬c ∧ Succeeds y s a t := by
  split <;> simp [*]

@[simp] theorem fails_ite {c : Prop} [Decidable c] {x y : ExceptT ε (StateM σ) α} {s t : σ}
    {e : ε} : Fails (if c then x else y) s e t ↔ c ∧ Fails x s e t ∨ ¬c ∧ Fails y s e t := by
  split <;> simp [*]

/-- Whatever the operation does, it keeps a property of the state. -/
def Keeps (P : σ → Prop) (x : ExceptT ε (StateM σ) α) : Prop :=
  ∀ s, P s → P (outcome x s).2

theorem Keeps.succeeds {P : σ → Prop} {x : ExceptT ε (StateM σ) α} (hx : Keeps P x) {s t : σ}
    {a : α} (h : Succeeds x s a t) (hs : P s) : P t := by
  have := hx s hs
  rwa [show outcome x s = (.ok a, t) from h] at this

theorem Keeps.fails {P : σ → Prop} {x : ExceptT ε (StateM σ) α} (hx : Keeps P x) {s t : σ}
    {e : ε} (h : Fails x s e t) (hs : P s) : P t := by
  have := hx s hs
  rwa [show outcome x s = (.error e, t) from h] at this

theorem Keeps.pure {P : σ → Prop} {a : α} : Keeps P (pure a : ExceptT ε (StateM σ) α) :=
  fun _ hs => hs

theorem Keeps.throw {P : σ → Prop} {e : ε} : Keeps P (throw e : ExceptT ε (StateM σ) α) :=
  fun _ hs => hs

theorem Keeps.bind {P : σ → Prop} {x : ExceptT ε (StateM σ) α} {f : α → ExceptT ε (StateM σ) β}
    (hx : Keeps P x) (hf : ∀ a, Keeps P (f a)) : Keeps P (x >>= f) := by
  intro s hs
  have h := hx s hs
  rw [outcome_bind]
  cases hr : outcome x s with
  | mk r t =>
    rw [hr] at h
    cases r with
    | ok a => exact hf a t h
    | error e => exact h

theorem Keeps.tryCatch {P : σ → Prop} {x : ExceptT ε (StateM σ) α}
    {f : ε → ExceptT ε (StateM σ) α} (hx : Keeps P x) (hf : ∀ e, Keeps P (f e)) :
    Keeps P (tryCatch x f) := by
  intro s hs
  have h := hx s hs
  rw [outcome_tryCatch]
  cases hr : outcome x s with
  | mk r t =>
    rw [hr] at h
    cases r with
    | ok a => exact h
    | error e => exact hf e t h

theorem Keeps.ite {P : σ → Prop} {c : Prop} [Decidable c] {x y : ExceptT ε (StateM σ) α}
    (hx : Keeps P x) (hy : Keeps P y) : Keeps P (if c then x else y) := by
  split
  · exact hx
  · exact hy

/-- Whatever the operation does, it keeps a property of the state, and what it gives has another
property. -/
def KeepsGiving (P : σ → Prop) (Q : α → Prop) (x : ExceptT ε (StateM σ) α) : Prop :=
  ∀ s, P s → P (outcome x s).2 ∧ ∀ a t, Succeeds x s a t → Q a

variable {P : σ → Prop}

theorem Keeps.giving {x : ExceptT ε (StateM σ) α} (hx : Keeps P x) :
    KeepsGiving P (fun _ => True) x :=
  fun s hs => ⟨hx s hs, fun _ _ _ => trivial⟩

theorem KeepsGiving.keeps {Q : α → Prop} {x : ExceptT ε (StateM σ) α} (hx : KeepsGiving P Q x) :
    Keeps P x :=
  fun s hs => (hx s hs).1

theorem KeepsGiving.pure {Q : α → Prop} {a : α} (ha : Q a) :
    KeepsGiving P Q (pure a : ExceptT ε (StateM σ) α) :=
  fun _ hs => ⟨hs, fun _ _ h => (succeeds_pure.mp h).1 ▸ ha⟩

theorem KeepsGiving.bind {Q : α → Prop} {R : β → Prop} {x : ExceptT ε (StateM σ) α}
    {f : α → ExceptT ε (StateM σ) β} (hx : KeepsGiving P Q x)
    (hf : ∀ a, Q a → KeepsGiving P R (f a)) : KeepsGiving P R (x >>= f) := by
  intro s hs
  obtain ⟨hstate, hvalue⟩ := hx s hs
  rw [outcome_bind]
  cases hr : outcome x s with
  | mk r t =>
    rw [hr] at hstate
    cases r with
    | ok a =>
      obtain ⟨hlast, hgiven⟩ := hf a (hvalue a t hr) t hstate
      refine ⟨hlast, fun b u h => ?_⟩
      obtain ⟨a', t', ha, hb⟩ := succeeds_bind.mp h
      obtain ⟨rfl, rfl⟩ := ha.unique hr
      exact hgiven b u hb
    | error e =>
      refine ⟨hstate, fun b u h => ?_⟩
      obtain ⟨a, t', ha, _⟩ := succeeds_bind.mp h
      exact absurd hr ha.not_fails

theorem KeepsGiving.ite {Q : α → Prop} {c : Prop} [Decidable c] {x y : ExceptT ε (StateM σ) α}
    (hx : KeepsGiving P Q x) (hy : KeepsGiving P Q y) : KeepsGiving P Q (if c then x else y) := by
  split
  · exact hx
  · exact hy

/-- What every round gives is given in the end. -/
theorem KeepsGiving.foldlM {Q : β → Prop} {f : β → α → ExceptT ε (StateM σ) β} {items : List α}
    {start : β} (hstart : Q start) (h : ∀ b a, Q b → KeepsGiving P Q (f b a)) :
    KeepsGiving P Q (items.foldlM f start) := by
  induction items generalizing start with
  | nil => exact .pure hstart
  | cons a rest ih =>
    rw [List.foldlM_cons]
    exact (h start a hstart).bind fun b hb => ih hb

end Runs

namespace DiskM

variable {α : Type} {fs fs' : FileSystem}

theorem outcome_change (f : FileSystem → Except IoError FileSystem) (fs : FileSystem) :
    outcome (change f) fs = match f fs with
      | .ok new => (.ok (), new)
      | .error cause => (.error cause, fs) := rfl

theorem outcome_inspect (f : FileSystem → Except IoError α) (fs : FileSystem) :
    outcome (inspect f) fs = (f fs, fs) := rfl

@[simp] theorem succeeds_change {f : FileSystem → Except IoError FileSystem} {u : Unit} :
    Succeeds (change f) fs u fs' ↔ f fs = .ok fs' := by
  unfold Succeeds
  rw [outcome_change]
  cases f fs <;> simp

@[simp] theorem fails_change {f : FileSystem → Except IoError FileSystem} {e : IoError} :
    Fails (change f) fs e fs' ↔ f fs = .error e ∧ fs' = fs := by
  unfold Fails
  rw [outcome_change]
  cases f fs <;> simp [eq_comm]

@[simp] theorem succeeds_inspect {f : FileSystem → Except IoError α} {a : α} :
    Succeeds (inspect f) fs a fs' ↔ f fs = .ok a ∧ fs' = fs := by
  unfold Succeeds
  rw [outcome_inspect]
  simp [eq_comm]

@[simp] theorem fails_inspect {f : FileSystem → Except IoError α} {e : IoError} :
    Fails (inspect f) fs e fs' ↔ f fs = .error e ∧ fs' = fs := by
  unfold Fails
  rw [outcome_inspect]
  simp [eq_comm]

@[simp] theorem succeeds_attempt {x : DiskM α} {u : Unit} :
    Succeeds (attempt x) fs u fs' ↔ (∃ a, Succeeds x fs a fs') ∨ ∃ e, Fails x fs e fs' := by
  have hrun : outcome (attempt x) fs = (.ok (), (outcome x fs).2) := rfl
  unfold Succeeds Fails
  rw [hrun]
  cases h : outcome x fs with
  | mk r t => cases r <;> simp

@[simp] theorem fails_attempt {x : DiskM α} {e : IoError} : ¬Fails (attempt x) fs e fs' := by
  intro h
  cases h

end DiskM

namespace Action

variable {α : Type} {s t : Session}

@[simp] theorem succeeds_ofExcept {r : Except Error α} {a : α} :
    Succeeds (ofExcept r) s a t ↔ r = .ok a ∧ t = s := by
  unfold Succeeds ofExcept
  constructor
  · intro h
    cases h
    exact ⟨rfl, rfl⟩
  · intro hboth
    obtain ⟨rfl, rfl⟩ := hboth
    rfl

@[simp] theorem fails_ofExcept {r : Except Error α} {e : Error} :
    Fails (ofExcept r) s e t ↔ r = .error e ∧ t = s := by
  unfold Fails ofExcept
  constructor
  · intro h
    cases h
    exact ⟨rfl, rfl⟩
  · intro hboth
    obtain ⟨rfl, rfl⟩ := hboth
    rfl

@[simp] theorem succeeds_disk {fs : FileSystem} :
    Succeeds disk s fs t ↔ fs = s.disk ∧ t = s := by
  constructor
  · intro h
    cases h
    exact ⟨rfl, rfl⟩
  · intro hboth
    obtain ⟨rfl, rfl⟩ := hboth
    rfl

@[simp] theorem fails_disk {e : Error} : ¬Fails disk s e t := by
  intro h
  cases h

@[simp] theorem succeeds_log {level : LogLevel} {text : String} {u : Unit} :
    Succeeds (log level text) s u t ↔ t = s.record level text := by
  constructor
  · intro h
    cases h
    rfl
  · intro heq
    subst heq
    rfl

@[simp] theorem fails_log {level : LogLevel} {text : String} {e : Error} :
    ¬Fails (log level text) s e t := by
  intro h
  cases h

theorem outcome_onDisk (x : DiskM α) (s : Session) :
    outcome (onDisk x) s =
      ((outcome x s.disk).1.mapError Error.io, { s with disk := (outcome x s.disk).2 }) := rfl

@[simp] theorem succeeds_onDisk {x : DiskM α} {a : α} :
    Succeeds (onDisk x) s a t ↔ ∃ fs, Succeeds x s.disk a fs ∧ t = { s with disk := fs } := by
  unfold Succeeds
  rw [outcome_onDisk]
  cases h : outcome x s.disk with
  | mk r fs =>
    cases r with
    | ok b =>
      change (Except.ok b, { s with disk := fs }) = _ ↔ _
      simp [and_assoc, eq_comm]
    | error cause =>
      change (Except.error (Error.io cause), { s with disk := fs }) = _ ↔ _
      simp

@[simp] theorem fails_onDisk {x : DiskM α} {e : Error} :
    Fails (onDisk x) s e t ↔
      ∃ cause fs, Fails x s.disk cause fs ∧ e = .io cause ∧ t = { s with disk := fs } := by
  unfold Fails
  rw [outcome_onDisk]
  cases h : outcome x s.disk with
  | mk r fs =>
    cases r with
    | ok b =>
      change (Except.ok b, { s with disk := fs }) = _ ↔ _
      simp
    | error cause =>
      change (Except.error (Error.io cause), { s with disk := fs }) = _ ↔ _
      simp [and_assoc, eq_comm]

/-- What an operation on files keeps is kept when it runs in a session. -/
theorem keeps_onDisk {P : FileSystem → Prop} {x : DiskM α} (hx : Keeps P x) :
    Keeps (fun s : Session => P s.disk) (onDisk x) :=
  fun s hs => hx s.disk hs

theorem keeps_log {P : FileSystem → Prop} {level : LogLevel} {text : String} :
    Keeps (fun s : Session => P s.disk) (log level text) :=
  fun _ hs => hs

theorem keeps_ofExcept {P : Session → Prop} {r : Except Error α} : Keeps P (ofExcept r) :=
  fun _ hs => hs

theorem keeps_disk {P : Session → Prop} : Keeps P disk :=
  fun _ hs => hs

theorem outcome_ofExcept_bind {β : Type} (r : Except Error α) (f : α → Action β) (s : Session) :
    outcome (ofExcept r >>= f) s = match r with
      | .ok a => outcome (f a) s
      | .error e => (.error e, s) := by
  cases r <;> rfl

/-- What comes after a result only has to keep the property if there is one. -/
theorem keeps_ofExcept_bind {β : Type} {P : Session → Prop} {r : Except Error α} {f : α → Action β}
    (h : ∀ a, r = .ok a → Keeps P (f a)) : Keeps P (ofExcept r >>= f) := by
  intro s hs
  rw [outcome_ofExcept_bind]
  cases r with
  | ok a => exact h a rfl s hs
  | error e => exact hs

end Action

@[simp] theorem Session.disk_record (s : Session) (level : LogLevel) (text : String) :
    (s.record level text).disk = s.disk := rfl

end Relatedness
