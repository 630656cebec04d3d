import FlowiVfs.DriverLedger
import FlowiVfs.MountOps

/-!
# A mount among its drivers

An operation of a mount is executed with the mount, the ledger of what its drivers have
handed out, and a world that everything else depends on: the drivers answer as the world
makes them, within their contract. The world is of an arbitrary type, so it may hold what
any one driver remembers, or nothing but a stream of choices.

A section that follows a dangling pointer does nothing but to set `faulted`.
-/
namespace FlowiVfs

namespace Program

variable {E : Signature} {A B S : Type}

/-- No operation of the execution satisfies `bad`. -/
def Avoids (handle : Handler E S) (bad : E.Op → Prop) : Program E A → S → Prop
  | .done _, _ => True
  | .perform op next, s =>
      ¬ bad op ∧ Avoids handle bad (next (handle op s).1) (handle op s).2

variable {handle : Handler E S} {bad : E.Op → Prop}

instance decidableAvoids [DecidablePred bad] :
    (p : Program E A) → (s : S) → Decidable (Avoids handle bad p s)
  | .done _, _ => isTrue trivial
  | .perform op next, s =>
      have := decidableAvoids (next (handle op s).1) (handle op s).2
      inferInstanceAs (Decidable (_ ∧ _))

@[simp] theorem avoids_done (a : A) (s : S) : Avoids handle bad (.done a : Program E A) s :=
  trivial

theorem avoids_bind {p : Program E A} {f : A → Program E B} {s : S} :
    Avoids handle bad (p >>= f) s ↔
      Avoids handle bad p s ∧
        Avoids handle bad (f (execute handle p s).1) (execute handle p s).2 := by
  induction p generalizing s with
  | done a => simp
  | perform op next ih => simp only [perform_bind, Avoids, execute_perform, ih, and_assoc]

end Program

namespace Tree

section
variable {S : Type} {handle : Program.Handler vfs S} {bad : VfsOp → Prop} {s : S}

@[simp] theorem avoids_perform {op : VfsOp} :
    Program.Avoids (A := no_index op.Reply) handle bad (perform op) s ↔ ¬ bad op :=
  and_iff_left trivial

@[simp] theorem avoids_onMount {op : MountSection} :
    Program.Avoids (A := no_index op.Reply) handle bad (onMount op) s ↔ ¬ bad (.mount op) :=
  and_iff_left trivial

@[simp] theorem avoids_shouldCancel :
    Program.Avoids handle bad shouldCancel s ↔ ¬ bad .shouldCancel :=
  and_iff_left trivial

end

/-- Everything around a mount. -/
structure Outside (W : Type) where
  driver : (op : DriverOp) → Ledger → W → op.Reply × Ledger × W
  lawful : ∀ op l w, contract l op (driver op l w).1 (driver op l w).2.1
  /-- The operations that are neither driver calls nor sections on the mount. -/
  other : (op : VfsOp) → W → op.Reply × W
  /-- The slot that the pool hands out next. -/
  slot : MountTree → W → NodePtr

structure MountWorld (W : Type) where
  mount : FlVfsMount
  ledger : Ledger
  world : W
  faulted : Bool := false

/-- The reply of a section that has failed. -/
def MountSection.fallback : (op : MountSection) → op.Reply
  | rootDriver _ => (0, {})
  | lookChild .. => none
  | ensureChildNodeExists .. => (0 : ℕ)
  | installArchive .. => ()
  | readDriver .. => {}
  | markDirectory _ => ()
  | listEntry .. => ()
  | snapshot _ => []
  | loadVersion => (0 : ℕ)
  | loadOptions => {}
  | loadWatching => (false, [])
  | storeRoot .. => ()
  | clearRoot => ()

section
variable {W : Type} (natural : NaturalCompare) (o : Outside W)

/-- How operations are answered. -/
def serve : Program.Handler vfs (MountWorld W)
  | .driver op, s =>
      let answer := o.driver op s.ledger s.world
      (answer.1, { s with ledger := answer.2.1, world := answer.2.2 })
  | .mount op, s =>
      match op.run natural (o.slot s.mount.tree s.world) s.mount with
      | some (reply, m) => (reply, { s with mount := m })
      | none => (op.fallback, { s with faulted := true })
  | op, s =>
      let answer := o.other op s.world
      (answer.1, { s with world := answer.2 })

variable {natural o} {s : MountWorld W}

theorem serve_mount {op : MountSection} {reply : op.Reply} {m : FlVfsMount}
    (h : op.run natural (o.slot s.mount.tree s.world) s.mount = some (reply, m)) :
    serve natural o (.mount op) s = (reply, { s with mount := m }) := by
  simp only [serve, h]

variable (natural o) in
/-- A program over the drivers runs within their contract and leaves the mount alone. -/
theorem onDrivers_run {A : Type} (p : DriverProgram A) :
    p.Run contract s.ledger (Program.execute (serve natural o) (onDrivers p) s).1
      (Program.execute (serve natural o) (onDrivers p) s).2.ledger := by
  induction p generalizing s with
  | done a => exact .done a _
  | perform op next ih =>
      have rest := ih (o.driver op s.ledger s.world).1
        (s := (serve natural o (.driver op) s).2)
      exact .perform (o.lawful op s.ledger s.world) rest

variable (natural o) in
theorem onDrivers_mount {A : Type} (p : DriverProgram A) :
    (Program.execute (serve natural o) (onDrivers p) s).2.mount = s.mount := by
  induction p generalizing s with
  | done a => rfl
  | perform op next ih => exact ih _

end
end Tree
end FlowiVfs
