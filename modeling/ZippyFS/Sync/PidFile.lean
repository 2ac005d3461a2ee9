import Mathlib.Data.Nat.Digits.Defs
import Mathlib.Logic.Function.Basic
import ZippyFS.Lib.Runs

/-! The start of the sync script. A file holds the process id of the script that runs, and a script
that finds another one alive stops. The file is read and written again in several steps, between
which all other processes go on.
-/

namespace ZippyFS

namespace Sync

open Runs

-----------------------------------------------------------------------------------------
-- Processes
-----------------------------------------------------------------------------------------

/-- What a process id belongs to: to no process, to one that does not run the script (and can or
cannot be sent signals), or to a script, which is about to look for the file, has found it, has
read an id in it, is about to open it for writing, has opened it, or is past `init`.
-/
inductive Phase where
  | none
  | other (signalled : Bool)
  | begun
  | found
  | read (pid : Nat)
  | cleared
  | opened
  | syncing
  deriving DecidableEq

/-- The script is in `init`. -/
def Phase.inInit : Phase → Bool
  | begun | found | read _ | cleared | opened => true
  | none | other _ | syncing => false

/-- The decimal digits of a process id, as `str` writes them. -/
def decimal (pid : Nat) : List Nat := (Nat.digits 10 pid).reverse

/-- The process id that `int` reads. -/
def ofDecimal (digits : List Nat) : Nat := Nat.ofDigits 10 digits.reverse

@[simp] theorem ofDecimal_decimal (pid : Nat) : ofDecimal (decimal pid) = pid := by
  rw [ofDecimal, decimal, List.reverse_reverse, Nat.ofDigits_digits]

theorem decimal_ne_nil {pid : Nat} (positive : 0 < pid) : decimal pid ≠ [] := by
  rw [decimal, Ne, List.reverse_eq_nil_iff, Nat.digits_eq_nil_iff_eq_zero]
  exact positive.ne'

/-- The processes of a machine and the file `sync.pid`, which may be absent. -/
structure Host where
  phase : Nat → Phase
  pidFile : Option (List Nat)

/-- What processes do: one that does not run the script starts; a script starts, looks for the
file, reads it, sends the signal 0 to the process it names, opens the file for writing, and closes
it; any process ends.
-/
inductive HostEvent where
  | spawn (pid : Nat) (signalled : Bool)
  | start (pid : Nat)
  | look (pid : Nat)
  | readline (pid : Nat)
  | kill (pid : Nat)
  | truncate (pid : Nat)
  | close (pid : Nat)
  | exit (pid : Nat)

namespace Host

/-- A process goes on. -/
def move (host : Host) (pid : Nat) (phase : Phase) : Host :=
  { host with phase := Function.update host.phase pid phase }

/-- `os.kill(pid, 0)` raises no error. -/
def isRunning (host : Host) (pid : Nat) : Bool :=
  match host.phase pid with
  | .none => false
  | .other signalled => signalled
  | _ => true

/-- The bytes of the file. -/
def contents (host : Host) : List Nat := host.pidFile.getD []

/-- `init`, step by step. A file that turns out to be empty cannot be read as a number, which ends
the script. What is written goes over the start of what is there.
-/
def step (host : Host) : HostEvent → Option Host
  | .spawn pid signalled =>
      if host.phase pid = .none then some (host.move pid (.other signalled)) else none
  | .start pid =>
      if host.phase pid = .none ∧ 0 < pid then some (host.move pid .begun) else none
  | .look pid =>
      if host.phase pid = .begun then
        some (host.move pid (if host.contents = [] then .cleared else .found))
      else none
  | .readline pid =>
      if host.phase pid = .found then
        some (host.move pid
          (if host.contents = [] then .none else .read (ofDecimal host.contents)))
      else none
  | .kill pid =>
      match host.phase pid with
      | .read target => some (host.move pid (if host.isRunning target then .none else .cleared))
      | _ => none
  | .truncate pid =>
      if host.phase pid = .cleared then some { host.move pid .opened with pidFile := some [] }
      else none
  | .close pid =>
      if host.phase pid = .opened then
        some { host.move pid .syncing with
          pidFile := some (decimal pid ++ host.contents.drop (decimal pid).length) }
      else none
  | .exit pid => if host.phase pid = .none then none else some (host.move pid .none)

/-- No process runs, and there is no file. -/
def idle : Host := ⟨fun _ => .none, none⟩

/-- A step that was taken. -/
def Steps (host : Host) (event : HostEvent) (next : Host) : Prop := host.step event = some next

/-- No script starts while another one is in `init`. -/
def InTurn (host : Host) (event : HostEvent) : Prop :=
  ∀ pid, event = .start pid → ∀ other, (host.phase other).inInit = false

/-- At most one script syncs. -/
def Exclusive (host : Host) : Prop :=
  ∀ one two, host.phase one = .syncing → host.phase two = .syncing → one = two

-----------------------------------------------------------------------------------------
-- The invariant
-----------------------------------------------------------------------------------------

variable {host next : Host} {pid other : Nat} {phase : Phase}

theorem move_phase (host : Host) (pid other : Nat) (phase : Phase)
    : (host.move pid phase).phase other = if other = pid then phase else host.phase other :=
  Function.update_apply ..

/-- The file names the script that syncs, and the script in `init` knows of it. -/
structure Guarded (host : Host) : Prop where
  positive
    : ∀ pid, (host.phase pid).inInit = true ∨ host.phase pid = .syncing → 0 < pid
  alone : ∀ one two, (host.phase one).inInit = true → (host.phase two).inInit = true → one = two
  named : ∀ pid, host.phase pid = .syncing → host.contents = decimal pid
  read
    : ∀ pid target other, host.phase pid = .read target → host.phase other = .syncing
      → target = other
  cleared
    : ∀ pid other, host.phase pid = .cleared ∨ host.phase pid = .opened
      → host.phase other ≠ .syncing
  opened : ∀ pid, host.phase pid = .opened → host.contents = []

theorem Guarded.exclusive (guarded : Guarded host) : Exclusive host := by
  intro one two first second
  rw [← ofDecimal_decimal one, ← guarded.named one first, guarded.named two second,
    ofDecimal_decimal]

theorem Guarded.idle : Guarded idle where
  positive := fun pid script => by rcases script with script | script <;> cases script
  alone := fun one two first => by cases first
  named := fun pid script => by cases script
  read := fun pid target other script => by cases script
  cleared := fun pid other script => by rcases script with script | script <;> cases script
  opened := fun pid script => by cases script

/-- A process that goes on leaves the rest guarded if it does not get to the file, is the only one
in `init`, and knows of the script that syncs.
-/
theorem Guarded.move (guarded : Guarded host)
    (turn
      : phase.inInit = true
        → 0 < pid ∧ ∀ other, (host.phase other).inInit = true → other = pid)
    (before : phase ≠ .opened ∧ phase ≠ .syncing)
    (read
      : ∀ target other, phase = .read target → host.phase other = .syncing → target = other)
    (cleared : ∀ other, phase = .cleared → other ≠ pid → host.phase other ≠ .syncing)
    : Guarded (host.move pid phase) := by
  have elsewhere {other : Nat} {reached : Phase}
      (there : (host.move pid phase).phase other = reached) (different : phase ≠ reached)
      : other ≠ pid ∧ host.phase other = reached := by
    rw [move_phase] at there
    split at there
    case isTrue => exact absurd there different
    case isFalse apart => exact ⟨apart, there⟩
  refine ⟨fun one script => ?_, fun one two first second => ?_, fun one script => ?_,
    fun one target two script syncs => ?_, fun one two script syncs => ?_, fun one script => ?_⟩
  · rw [move_phase] at script
    split at script
    case isTrue same =>
        rcases script with inInit | syncs
        · exact same ▸ (turn inInit).1
        · exact absurd syncs before.2
    case isFalse => exact guarded.positive one script
  · rw [move_phase] at first second
    split at first <;> split at second
    case isTrue.isTrue one two => rw [one, two]
    case isTrue.isFalse same _ => rw [same, (turn first).2 two second]
    case isFalse.isTrue _ same => rw [same, (turn second).2 one first]
    case isFalse.isFalse => exact guarded.alone one two first second
  · exact guarded.named one (elsewhere script before.2).2
  · obtain ⟨-, syncs⟩ := elsewhere syncs before.2
    rw [move_phase] at script
    split at script
    case isTrue => exact read target two script syncs
    case isFalse => exact guarded.read one target two script syncs
  · obtain ⟨apart, syncs⟩ := elsewhere syncs before.2
    rw [move_phase] at script
    split at script
    case isTrue =>
        rcases script with here | here
        · exact cleared two here apart syncs
        · exact before.1 here
    case isFalse => exact guarded.cleared one two script syncs
  · exact guarded.opened one (elsewhere script before.1).2

/-- In `init` a script stays the only one there. -/
theorem Guarded.turn (guarded : Guarded host) (here : (host.phase pid).inInit = true)
    : 0 < pid ∧ ∀ other, (host.phase other).inInit = true → other = pid :=
  ⟨guarded.positive pid (Or.inl here), fun other there => guarded.alone other pid there here⟩

/-- Nobody syncs when the file is opened for writing. -/
theorem Guarded.truncated (guarded : Guarded host) (here : host.phase pid = .cleared)
    : Guarded { host.move pid .opened with pidFile := some [] } := by
  obtain ⟨positive, alone⟩ := guarded.turn (by rw [here]; rfl)
  have none (other : Nat) : (host.move pid .opened).phase other ≠ .syncing := by
    rw [move_phase]
    split
    · exact Phase.noConfusion
    · exact guarded.cleared pid other (Or.inl here)
  have only {other : Nat} (script : ((host.move pid .opened).phase other).inInit = true)
      : other = pid := by
    rw [move_phase] at script
    split at script
    case isTrue same => exact same
    case isFalse => exact alone other script
  exact {
    positive := fun one script => by
      rcases script with inInit | syncs
      · exact only inInit ▸ positive
      · exact absurd syncs (none one)
    alone := fun one two first second => (only first).trans (only second).symm
    named := fun one syncs => absurd syncs (none one)
    read := fun one target two script syncs => absurd syncs (none two)
    cleared := fun one two script => none two
    opened := fun one script => rfl
  }

/-- The script that closes the file is the only one that syncs then, and nobody is in `init`. -/
theorem Guarded.closed (guarded : Guarded host) (here : host.phase pid = .opened)
    : Guarded { host.move pid .syncing with
        pidFile := some (decimal pid ++ host.contents.drop (decimal pid).length) } := by
  obtain ⟨positive, alone⟩ := guarded.turn (by rw [here]; rfl)
  have past (other : Nat) : ((host.move pid .syncing).phase other).inInit = false := by
    rw [move_phase]
    split
    case isTrue => rfl
    case isFalse apart => exact Bool.eq_false_iff.mpr fun script => apart (alone other script)
  have only {other : Nat} (syncs : (host.move pid .syncing).phase other = .syncing)
      : other = pid := by
    rw [move_phase] at syncs
    split at syncs
    case isTrue same => exact same
    case isFalse => exact absurd syncs (guarded.cleared pid other (Or.inr here))
  have never {other : Nat} {reached : Phase}
      (there : (host.move pid .syncing).phase other = reached)
      : reached.inInit = false :=
    there ▸ past other
  exact {
    positive := fun one script => by
      rcases script with inInit | syncs
      · exact absurd inInit (Bool.eq_false_iff.mp (past one))
      · exact only syncs ▸ positive
    alone := fun one two first => absurd first (Bool.eq_false_iff.mp (past one))
    named := fun one syncs => by
      rw [only syncs, contents, Option.getD_some, guarded.opened pid here, List.drop_nil,
        List.append_nil]
    read := fun one target two script => nomatch never script
    cleared := fun one two script => by rcases script with script | script <;> cases never script
    opened := fun one script => nomatch never script
  }

/-- A step keeps the file guarded, if no script starts while another one is in `init`. -/
theorem Guarded.step {event : HostEvent} (guarded : Guarded host) (inTurn : host.InTurn event)
    (taken : Steps host event next)
    : Guarded next := by
  cases event with
  | spawn pid signalled =>
      simp only [Steps, Host.step, Option.ite_none_right_eq_some, Option.some.injEq] at taken
      obtain ⟨-, rfl⟩ := taken
      exact guarded.move (by simp [Phase.inInit]) (by simp) (by simp) (by simp)
  | start pid =>
      simp only [Steps, Host.step, Option.ite_none_right_eq_some, Option.some.injEq] at taken
      obtain ⟨⟨-, positive⟩, rfl⟩ := taken
      refine guarded.move (fun _ => ⟨positive, fun other there => ?_⟩) (by simp) (by simp) (by simp)
      rw [inTurn pid rfl other] at there
      cases there
  | look pid =>
      simp only [Steps, Host.step, Option.ite_none_right_eq_some, Option.some.injEq] at taken
      obtain ⟨here, rfl⟩ := taken
      refine guarded.move (fun _ => guarded.turn (by rw [here]; rfl)) ?_ ?_ ?_
      · split <;> simp
      · split <;> simp
      · intro other empty _ syncs
        split at empty
        case isFalse => cases empty
        case isTrue nothing =>
            rw [guarded.named other syncs] at nothing
            exact decimal_ne_nil (guarded.positive other (Or.inr syncs)) nothing
  | readline pid =>
      simp only [Steps, Host.step, Option.ite_none_right_eq_some, Option.some.injEq] at taken
      obtain ⟨here, rfl⟩ := taken
      refine guarded.move (fun _ => guarded.turn (by rw [here]; rfl)) ?_ ?_ ?_
      · split <;> simp
      · intro target other found syncs
        split at found
        case isTrue => cases found
        case isFalse =>
            obtain rfl := Phase.read.inj found
            rw [guarded.named other syncs, ofDecimal_decimal]
      · intro other found
        split at found <;> cases found
  | kill pid =>
      rw [Steps, Host.step] at taken
      split at taken
      case h_2 => cases taken
      case h_1 target here =>
          obtain rfl := Option.some.inj taken
          refine guarded.move (fun _ => guarded.turn (by rw [here]; rfl)) ?_ ?_ ?_
          · split <;> simp
          · intro found other which
            split at which <;> cases which
          · intro other gone _ syncs
            split at gone
            case isTrue => cases gone
            case isFalse stopped =>
                rw [guarded.read pid target other here syncs, isRunning, syncs] at stopped
                exact stopped rfl
  | truncate pid =>
      simp only [Steps, Host.step, Option.ite_none_right_eq_some, Option.some.injEq] at taken
      obtain ⟨here, rfl⟩ := taken
      exact guarded.truncated here
  | close pid =>
      simp only [Steps, Host.step, Option.ite_none_right_eq_some, Option.some.injEq] at taken
      obtain ⟨here, rfl⟩ := taken
      exact guarded.closed here
  | exit pid =>
      simp only [Steps, Host.step, Option.ite_none_left_eq_some, Option.some.injEq] at taken
      obtain ⟨-, rfl⟩ := taken
      exact guarded.move (by simp [Phase.inInit]) (by simp) (by simp) (by simp)

-----------------------------------------------------------------------------------------
-- Runs
-----------------------------------------------------------------------------------------

/-- One script starts between the look of another at the file and its entry. -/
def raced (one two : Nat) : List HostEvent :=
  [.start one, .look one, .start two, .look two, .truncate one, .close one, .truncate two,
    .close two]

/-- The file keeps scripts apart as long as none starts while another one is in `init`: however
processes start and end, at most one script syncs. Otherwise it does not: of any two processes both
can get past `init`.
-/
theorem exclusive_in_turn
    : (∀ events host, Run (fun host event next => InTurn host event ∧ Steps host event next) idle
          events host
        → Exclusive host)
      ∧ ∀ one two, 0 < one → 0 < two → one ≠ two
        → ∃ host, Run Steps idle (raced one two) host ∧ ¬ Exclusive host := by
  constructor
  · intro events host run
    refine Guarded.exclusive (run.state_invariant .idle ?_)
    rintro state event next guarded ⟨inTurn, taken⟩
    exact guarded.step inTurn taken
  · intro one two first second apart
    obtain ⟨host, done, both⟩ : ∃ host, (raced one two).foldlM step idle = some host
        ∧ host.phase one = .syncing ∧ host.phase two = .syncing := by
      simp [raced, step, idle, contents, move, first, second, apart, apart.symm]
    exact ⟨host, .of_foldlM done, fun exclusive => apart (exclusive one two both.1 both.2)⟩

end Host

end Sync

end ZippyFS
