import Mathlib.Logic.Function.Basic
import ZippyFS.Index.RecordList
import ZippyFS.Lib.Runs

/-! How tree files reach other clients. Every client has a file system that writes tree files and
a sync script that copies them. The two run side by side: a flush creates its file under the
final name, grows and fills it, and the script may run between any two of these steps.
-/

namespace ZippyFS

open CellMemory Runs

/-- The bytes of the file behind an allocator. -/
def TireFire.file (tires : TireFire) : List Cell := tires.mem.read 0 tires.curSize

namespace TireFire

/-- `get_tire` appends zeros to the file. -/
theorem file_getTire (tires : TireFire) (size : Nat)
    : (tires.getTire size).2.file = tires.file ++ List.replicate size (.byte 0) := by
  apply List.ext_getElem?
  intro index
  rw [file, getTire_curSize, getTire_mem, Mem.getElem?_read, Nat.zero_add]
  by_cases old : index < tires.curSize
  · rw [if_pos (Nat.lt_add_right size old), Mem.clear_outside _ _ _ _ (Or.inl old),
      List.getElem?_append_left (by simpa [file] using old), file, Mem.getElem?_read, if_pos old,
      Nat.zero_add]
  · have behind : tires.file.length ≤ index := by
      simpa [file] using Nat.le_of_not_lt old
    rw [List.getElem?_append_right behind, List.getElem?_replicate]
    have width : tires.file.length = tires.curSize := by simp [file]
    by_cases inside : index < tires.curSize + size
    · have zero : (tires.mem.clear tires.curSize size).cell index = .byte 0 :=
        if_pos ⟨Nat.le_of_not_lt old, inside⟩
      rw [if_pos inside, if_pos (by omega), zero]
    · rw [if_neg inside, if_neg (by omega)]

/-- Writing through the mapping keeps the length of the file. -/
theorem length_file_withMem (tires : TireFire) (mem : Mem)
    : (tires.withMem mem).file.length = tires.file.length := by
  simp [file, withMem]

end TireFire

namespace Sync

/-- The server's directory, and for every client its directory, the tree file that its file
system is writing, and whether its script has uploaded but not downloaded yet. `author` and
`finished` record who created a file and with which bytes its flush ended.
-/
structure Network (Client : Type) where
  server : Bytes → Option (List Cell)
  dir : Client → Bytes → Option (List Cell)
  flushing : Client → Option Bytes
  uploaded : Client → Bool
  author : Bytes → Option Client
  finished : Bytes → Option (List Cell)

/-- The steps of the file systems and of the scripts. -/
inductive Event (Client : Type)
  | create (client : Client) (name : Bytes)
  | grow (client : Client) (size : Nat)
  | fill (client : Client) (bytes : List Cell)
  | finish (client : Client)
  | upload (client : Client)
  | download (client : Client)

/-- `rsync --ignore-existing`: names that are absent are copied. -/
def rsync (source target : Bytes → Option (List Cell)) (name : Bytes) : Option (List Cell) :=
  (target name).or (source name)

section Network

variable {Client : Type} [DecidableEq Client]

namespace Network

/-- Empty directories everywhere. -/
def empty : Network Client := ⟨fun _ => none, fun _ _ => none, fun _ => none, fun _ => false,
  fun _ => none, fun _ => none⟩

/-- Replace the bytes of a client's file. -/
def withFile (net : Network Client) (client : Client) (name : Bytes) (bytes : List Cell)
    : Network Client :=
  { net with
    dir := Function.update net.dir client (Function.update (net.dir client) name (some bytes)) }

/-- The name and the bytes of the file that a client is writing. -/
def openFile (net : Network Client) (client : Client) : Option (Bytes × List Cell) := do
  let name ← net.flushing client
  let bytes ← net.dir client name
  pure (name, bytes)

/-- One step. Names of tree files are never used twice. A flush opens its file under the final
name, appends zeros, and overwrites bytes through the mapping; a sync round uploads, then
downloads.
-/
def step (net : Network Client) : Event Client → Option (Network Client)
  | .create client name =>
      if net.flushing client = none ∧ net.author name = none then
        some { net.withFile client name [] with
          flushing := Function.update net.flushing client (some name)
          author := Function.update net.author name (some client) }
      else none
  | .grow client size => do
      let (name, bytes) ← net.openFile client
      pure (net.withFile client name (bytes ++ List.replicate size (.byte 0)))
  | .fill client bytes => do
      let (name, old) ← net.openFile client
      if bytes.length = old.length then some (net.withFile client name bytes) else none
  | .finish client => do
      let (name, bytes) ← net.openFile client
      pure { net with
        flushing := Function.update net.flushing client none
        finished := Function.update net.finished name (some bytes) }
  | .upload client =>
      if net.uploaded client then none
      else
        some { net with
          server := rsync (net.dir client) net.server
          uploaded := Function.update net.uploaded client true }
  | .download client =>
      if net.uploaded client then
        some { net with
          dir := Function.update net.dir client (rsync net.server (net.dir client))
          uploaded := Function.update net.uploaded client false }
      else none

/-- Every copy of a file whose flush has finished is the finished file. -/
def Published (net : Network Client) : Prop :=
  ∀ name final, net.finished name = some final
    → (∀ copy, net.server name = some copy → copy = final)
      ∧ ∀ client copy, net.dir client name = some copy → copy = final

/-- A script that uploads finds no file that is still being written. -/
def Whole (net : Network Client) (event : Event Client) : Prop :=
  ∀ client, event = .upload client → net.flushing client = none

/-- The steps in which no unfinished file is uploaded. -/
def WholeStep (net : Network Client) (event : Event Client) (next : Network Client) : Prop :=
  net.Whole event ∧ net.step event = some next

/-- A file is in its author's directory only until its flush ends, and every copy of it is whole
afterwards.
-/
structure Consistent (net : Network Client) : Prop where
  unused
    : ∀ name, net.author name = none
      → net.finished name = none ∧ net.server name = none ∧ ∀ client, net.dir client name = none
  writing
    : ∀ client name, net.flushing client = some name
      → net.author name = some client ∧ net.finished name = none ∧ net.server name = none
        ∧ (∃ bytes, net.dir client name = some bytes)
        ∧ ∀ other, other ≠ client → net.dir other name = none
  published : net.Published

variable {net next : Network Client}

omit [DecidableEq Client] in
/-- Nothing is there at first. -/
theorem Consistent.empty : (empty : Network Client).Consistent where
  unused := fun _ _ => ⟨rfl, rfl, fun _ => rfl⟩
  writing := fun _ _ open_ => nomatch open_
  published := fun _ _ done => nomatch done

omit [DecidableEq Client] in
/-- The file that a client writes. -/
theorem openFile_eq_some {client : Client} {name : Bytes} {bytes : List Cell}
    : net.openFile client = some (name, bytes)
      ↔ net.flushing client = some name ∧ net.dir client name = some bytes := by
  simp only [openFile, Option.bind_eq_bind, Option.bind_eq_some_iff, Option.pure_def,
    Option.some.injEq, Prod.mk.injEq]
  constructor
  · rintro ⟨_, open_, _, there, rfl, rfl⟩
    exact ⟨open_, there⟩
  · rintro ⟨open_, there⟩
    exact ⟨name, open_, bytes, there, rfl, rfl⟩

omit [DecidableEq Client] in
/-- Two clients do not write the same file. -/
theorem Consistent.writer_unique (consistent : net.Consistent) {client other : Client}
    {name : Bytes} (one : net.flushing client = some name) (two : net.flushing other = some name)
    : client = other := by
  have same := (consistent.writing client name one).1.symm.trans
    (consistent.writing other name two).1
  exact Option.some.inj same

@[simp] theorem withFile_self (net : Network Client) (client : Client) (name : Bytes)
    (bytes : List Cell)
    : (net.withFile client name bytes).dir client name = some bytes := by
  simp [withFile]

theorem withFile_other {client other : Client} {name path : Bytes} (bytes : List Cell)
    (apart : other ≠ client ∨ path ≠ name)
    : (net.withFile client name bytes).dir other path = net.dir other path := by
  rcases apart with apart | apart
  · simp [withFile, apart]
  · by_cases same : other = client
    · subst same
      simp [withFile, apart]
    · simp [withFile, same]

/-- A client may change the bytes of the file that it writes. -/
theorem Consistent.withFile (consistent : net.Consistent) {client : Client} {name : Bytes}
    (open_ : net.flushing client = some name) (bytes : List Cell)
    : (net.withFile client name bytes).Consistent := by
  obtain ⟨author, unfinished, absent, _, alone⟩ := consistent.writing client name open_
  constructor
  · intro path unused
    obtain ⟨never, nowhere, none⟩ := consistent.unused path unused
    refine ⟨never, nowhere, fun other => ?_⟩
    have apart : path ≠ name := by
      rintro rfl
      exact nomatch author.symm.trans unused
    exact (withFile_other bytes (Or.inr apart)).trans (none other)
  · intro writer path written
    obtain ⟨authors, never, nowhere, ⟨old, there⟩, others⟩ :=
      consistent.writing writer path written
    refine ⟨authors, never, nowhere, ?_, fun other apart => ?_⟩
    · by_cases same : writer = client
      · subst same
        obtain rfl : name = path := Option.some.inj (open_.symm.trans written)
        exact ⟨bytes, withFile_self ..⟩
      · exact ⟨old, (withFile_other bytes (Or.inl same)).trans there⟩
    · by_cases same : other = client ∧ path = name
      · obtain ⟨rfl, rfl⟩ := same
        exact absurd (consistent.writer_unique open_ written) apart
      · exact (withFile_other bytes (not_and_or.mp same)).trans (others other apart)
  · intro path final done
    have apart : path ≠ name := by
      rintro rfl
      exact nomatch unfinished.symm.trans done
    refine ⟨(consistent.published path final done).1, fun other copy there => ?_⟩
    rw [withFile_other bytes (Or.inr apart)] at there
    exact (consistent.published path final done).2 other copy there

/-- A new file is its author's alone. -/
theorem Consistent.create (consistent : net.Consistent) {client : Client} {name : Bytes}
    (idle : net.flushing client = none) (unused : net.author name = none)
    : Consistent { net.withFile client name [] with
        flushing := Function.update net.flushing client (some name)
        author := Function.update net.author name (some client) } := by
  obtain ⟨never, nowhere, none⟩ := consistent.unused name unused
  constructor
  · intro path fresh
    have apart : path ≠ name := by
      rintro rfl
      simp at fresh
    simp only [Function.update_of_ne apart] at fresh
    obtain ⟨notDone, notThere, noCopy⟩ := consistent.unused path fresh
    exact ⟨notDone, notThere, fun other => (withFile_other [] (Or.inr apart)).trans (noCopy other)⟩
  · intro writer path written
    by_cases same : writer = client
    · subst same
      obtain rfl : name = path := by simpa using written
      refine ⟨by simp, never, nowhere, ⟨[], withFile_self ..⟩, fun other apart => ?_⟩
      exact (withFile_other [] (Or.inl apart)).trans (none other)
    · simp only [Function.update_of_ne same] at written
      obtain ⟨authors, notDone, notThere, ⟨old, there⟩, others⟩ :=
        consistent.writing writer path written
      have apart : path ≠ name := by
        rintro rfl
        exact nomatch unused.symm.trans authors
      refine ⟨by simpa [apart] using authors, notDone, notThere,
        ⟨old, (withFile_other [] (Or.inl same)).trans there⟩, fun other away => ?_⟩
      exact (withFile_other [] (Or.inr apart)).trans (others other away)
  · intro path final done
    have apart : path ≠ name := by
      rintro rfl
      exact nomatch never.symm.trans done
    refine ⟨(consistent.published path final done).1, fun other copy there => ?_⟩
    have there : (net.withFile client name []).dir other path = some copy := there
    rw [withFile_other [] (Or.inr apart)] at there
    exact (consistent.published path final done).2 other copy there

/-- A file that is finished has one copy, its author's. -/
theorem Consistent.finish (consistent : net.Consistent) {client : Client} {name : Bytes}
    {bytes : List Cell} (open_ : net.flushing client = some name)
    (there : net.dir client name = some bytes)
    : Consistent { net with
        flushing := Function.update net.flushing client none
        finished := Function.update net.finished name (some bytes) } := by
  obtain ⟨author, _, absent, _, alone⟩ := consistent.writing client name open_
  constructor
  · intro path unused
    have apart : path ≠ name := by
      rintro rfl
      exact nomatch author.symm.trans unused
    simpa [apart] using consistent.unused path unused
  · intro writer path written
    have other : writer ≠ client := by
      rintro rfl
      simp at written
    simp only [Function.update_of_ne other] at written
    have apart : path ≠ name := by
      rintro rfl
      exact other (consistent.writer_unique written open_)
    simpa [apart] using consistent.writing writer path written
  · intro path final done
    by_cases same : path = name
    · subst same
      obtain rfl : bytes = final := by simpa using done
      refine ⟨fun copy copied => ?_, fun other copy copied => ?_⟩
      · exact nomatch absent.symm.trans copied
      · by_cases own : other = client
        · subst own
          exact Option.some.inj (copied.symm.trans there)
        · exact nomatch (alone other own).symm.trans copied
    · simp only [Function.update_of_ne same] at done
      exact consistent.published path final done

theorem rsync_eq_some {source target : Bytes → Option (List Cell)} {name : Bytes}
    {bytes : List Cell} (copied : rsync source target name = some bytes)
    : target name = some bytes ∨ (target name = none ∧ source name = some bytes) := by
  simpa [rsync, Option.or_eq_some_iff] using copied

theorem rsync_eq_none {source target : Bytes → Option (List Cell)} {name : Bytes}
    : rsync source target name = none ↔ target name = none ∧ source name = none := by
  simp [rsync]

/-- An upload beside no flush of the same client copies whole files. -/
theorem Consistent.upload (consistent : net.Consistent) {client : Client}
    (idle : net.flushing client = none)
    : Consistent { net with
        server := rsync (net.dir client) net.server
        uploaded := Function.update net.uploaded client true } := by
  constructor
  · intro path unused
    obtain ⟨never, nowhere, none⟩ := consistent.unused path unused
    exact ⟨never, rsync_eq_none.mpr ⟨nowhere, none client⟩, none⟩
  · intro writer path written
    obtain ⟨authors, never, nowhere, there, others⟩ := consistent.writing writer path written
    have apart : client ≠ writer := by
      rintro rfl
      exact nomatch idle.symm.trans written
    exact ⟨authors, never, rsync_eq_none.mpr ⟨nowhere, others client apart⟩, there, others⟩
  · intro path final done
    obtain ⟨served, held⟩ := consistent.published path final done
    refine ⟨fun copy copied => ?_, held⟩
    rcases rsync_eq_some copied with before | ⟨_, sent⟩
    · exact served copy before
    · exact held client copy sent

/-- A download copies whole files, since the server has no others. -/
theorem Consistent.download (consistent : net.Consistent) (client : Client)
    : Consistent { net with
        dir := Function.update net.dir client (rsync net.server (net.dir client))
        uploaded := Function.update net.uploaded client false } := by
  have dirs (other : Client) {path : Bytes} (absent : net.server path = none)
      : Function.update net.dir client (rsync net.server (net.dir client)) other path
        = net.dir other path := by
    by_cases same : other = client
    · subst same
      simp [rsync, absent]
    · rw [Function.update_of_ne same]
  constructor
  · intro path unused
    obtain ⟨never, nowhere, none⟩ := consistent.unused path unused
    exact ⟨never, nowhere, fun other => (dirs other nowhere).trans (none other)⟩
  · intro writer path written
    obtain ⟨authors, never, nowhere, ⟨bytes, there⟩, others⟩ :=
      consistent.writing writer path written
    exact ⟨authors, never, nowhere, ⟨bytes, (dirs writer nowhere).trans there⟩,
      fun other apart => (dirs other nowhere).trans (others other apart)⟩
  · intro path final done
    obtain ⟨served, held⟩ := consistent.published path final done
    refine ⟨served, fun other copy copied => ?_⟩
    by_cases same : other = client
    · subst same
      simp only [Function.update_self] at copied
      rcases rsync_eq_some copied with before | ⟨_, received⟩
      · exact held other copy before
      · exact served copy received
    · simp only [Function.update_of_ne same] at copied
      exact held other copy copied

/-- A step in which no unfinished file is uploaded keeps every copy whole. -/
theorem Consistent.step (consistent : net.Consistent) {event : Event Client}
    (step : net.WholeStep event next)
    : next.Consistent := by
  obtain ⟨whole, taken⟩ := step
  cases event with
  | create client name =>
      simp only [Network.step] at taken
      split at taken
      · next free =>
          obtain rfl := Option.some.inj taken
          exact consistent.create free.1 free.2
      · cases taken
  | grow client size =>
      obtain ⟨⟨name, bytes⟩, written, taken⟩ := Option.bind_eq_some_iff.mp taken
      obtain rfl := Option.some.inj taken
      exact consistent.withFile (openFile_eq_some.mp written).1 _
  | fill client bytes =>
      obtain ⟨⟨name, old⟩, written, taken⟩ := Option.bind_eq_some_iff.mp taken
      simp only at taken
      split at taken
      · obtain rfl := Option.some.inj taken
        exact consistent.withFile (openFile_eq_some.mp written).1 _
      · cases taken
  | finish client =>
      obtain ⟨⟨name, bytes⟩, written, taken⟩ := Option.bind_eq_some_iff.mp taken
      obtain rfl := Option.some.inj taken
      obtain ⟨open_, there⟩ := openFile_eq_some.mp written
      exact consistent.finish open_ there
  | upload client =>
      simp only [Network.step] at taken
      split at taken
      · cases taken
      · obtain rfl := Option.some.inj taken
        exact consistent.upload (whole client rfl)
  | download client =>
      simp only [Network.step] at taken
      split at taken
      · obtain rfl := Option.some.inj taken
        exact consistent.download client
      · cases taken

/-- No flush ends twice. -/
theorem Consistent.finished_kept (consistent : net.Consistent) {event : Event Client}
    (step : net.step event = some next) {name : Bytes} {final : List Cell}
    (done : net.finished name = some final)
    : next.finished name = some final := by
  cases event with
  | create client path =>
      simp only [Network.step] at step
      split at step
      · obtain rfl := Option.some.inj step
        exact done
      · cases step
  | grow client size =>
      obtain ⟨⟨path, bytes⟩, _, step⟩ := Option.bind_eq_some_iff.mp step
      obtain rfl := Option.some.inj step
      exact done
  | fill client bytes =>
      obtain ⟨⟨path, old⟩, _, step⟩ := Option.bind_eq_some_iff.mp step
      simp only at step
      split at step
      · obtain rfl := Option.some.inj step
        exact done
      · cases step
  | finish client =>
      obtain ⟨⟨path, bytes⟩, written, step⟩ := Option.bind_eq_some_iff.mp step
      obtain rfl := Option.some.inj step
      have apart : name ≠ path := by
        rintro rfl
        have unfinished := (consistent.writing client name (openFile_eq_some.mp written).1).2.1
        exact nomatch unfinished.symm.trans done
      simpa [apart] using done
  | upload client =>
      simp only [Network.step] at step
      split at step
      · cases step
      · obtain rfl := Option.some.inj step
        exact done
  | download client =>
      simp only [Network.step] at step
      split at step
      · obtain rfl := Option.some.inj step
        exact done
      · cases step

/-- `get_tire` is a step that grows the file. -/
theorem step_getTire {client : Client} {name : Bytes} {tires : TireFire}
    (written : net.openFile client = some (name, tires.file)) (size : Nat)
    : net.step (.grow client size)
      = some (net.withFile client name (tires.getTire size).2.file) := by
  rw [TireFire.file_getTire, Network.step, written]
  rfl

/-- Writing through the mapping is a step that fills the file. -/
theorem step_withMem {client : Client} {name : Bytes} {tires : TireFire}
    (written : net.openFile client = some (name, tires.file)) (mem : Mem)
    : net.step (.fill client (tires.withMem mem).file)
      = some (net.withFile client name (tires.withMem mem).file) := by
  simp only [Network.step, written, Option.bind_eq_bind, Option.bind_some,
    tires.length_file_withMem mem, if_true]

/-- A client that writes a file can end its flush with any longer contents. -/
theorem exists_finish {client : Client} {name : Bytes} {bytes : List Cell}
    (written : net.openFile client = some (name, bytes)) (size : Nat) {final : List Cell}
    (length : final.length = bytes.length + size)
    : ∃ last, Run WholeStep net [.grow client size, .fill client final, .finish client] last
        ∧ last.finished name = some final ∧ last.server = net.server
        ∧ ∀ other, other ≠ client → last.dir other = net.dir other := by
  obtain ⟨open_, there⟩ := openFile_eq_some.mp written
  have quiet {event : Event Client} {net : Network Client}
      (event_ : ∀ client, event ≠ .upload client)
      : net.Whole event :=
    fun client upload => absurd upload (event_ client)
  have grown : (net.withFile client name (bytes ++ List.replicate size (.byte 0))).openFile client
      = some (name, bytes ++ List.replicate size (.byte 0)) :=
    openFile_eq_some.mpr ⟨open_, withFile_self ..⟩
  generalize larger : net.withFile client name (bytes ++ List.replicate size (.byte 0)) = middle
    at grown
  have filled : (middle.withFile client name final).openFile client = some (name, final) :=
    openFile_eq_some.mpr ⟨(openFile_eq_some.mp grown).1, withFile_self ..⟩
  have server : (middle.withFile client name final).server = net.server := by
    rw [← larger]
    rfl
  have dirs (other : Client) (apart : other ≠ client)
      : (middle.withFile client name final).dir other = net.dir other := by
    funext path
    rw [withFile_other final (Or.inl apart), ← larger, withFile_other _ (Or.inl apart)]
  generalize replaced : middle.withFile client name final = whole at filled server dirs
  have grow : net.step (.grow client size) = some middle := by
    simp only [Network.step, written, ← larger]
    rfl
  have fill : middle.step (.fill client final) = some whole := by
    simp only [Network.step, grown, Option.bind_eq_bind, Option.bind_some, List.length_append,
      List.length_replicate, length, if_true, replaced]
  have finish : whole.step (.finish client) = some { whole with
      flushing := Function.update whole.flushing client none
      finished := Function.update whole.finished name (some final) } := by
    simp only [Network.step, filled]
    rfl
  refine ⟨_, .snoc (.snoc (.snoc .nil ⟨quiet (by simp), grow⟩) ⟨quiet (by simp), fill⟩)
    ⟨quiet (by simp), finish⟩, ?_, server, dirs⟩
  simp

/-- An unfinished file that is uploaded can end differently from its copy. -/
theorem Consistent.upload_partial (consistent : net.Consistent) {client : Client} {name : Bytes}
    (written : net.flushing client = some name) (step : net.step (.upload client) = some next)
    : ∃ more final, Run WholeStep next more final ∧ ¬ final.Published := by
  obtain ⟨_, _, absent, ⟨bytes, there⟩, _⟩ := consistent.writing client name written
  simp only [Network.step] at step
  split at step
  · cases step
  · obtain rfl := Option.some.inj step
    have opened : openFile { net with
        server := rsync (net.dir client) net.server
        uploaded := Function.update net.uploaded client true } client = some (name, bytes) :=
      openFile_eq_some.mpr ⟨written, there⟩
    have longer : (bytes ++ [Cell.byte 0]).length = bytes.length + 1 := by simp
    obtain ⟨last, run, finished, server, _⟩ := exists_finish opened 1 longer
    refine ⟨_, last, run, fun published => ?_⟩
    have copy : last.server name = some bytes := by
      rw [server]
      simp [rsync, absent, there]
    have whole := (published name _ finished).1 bytes copy
    simp at whole

/-- While every script uploads beside no unfinished flush of its own client, every copy of a
finished file is whole, and no later step changes what was finished. The first upload beside an
unfinished flush loses that for some of the ways in which the run can go on.
-/
theorem published_of_whole {events : List (Event Client)}
    (run : Run WholeStep (empty : Network Client) events net)
    : net.Published
      ∧ ∀ event next, net.step event = some next
        → (∀ name final, net.finished name = some final → next.finished name = some final)
          ∧ (net.Whole event
            ↔ ∀ more final, Run WholeStep next more final → final.Published) := by
  have consistent : net.Consistent :=
    run.state_invariant .empty fun _ _ _ holds step => holds.step step
  refine ⟨consistent.published, fun event next step => ⟨?_, fun whole more final continued => ?_,
    ?_⟩⟩
  · exact fun name final done => consistent.finished_kept step done
  · have after := consistent.step ⟨whole, step⟩
    exact (continued.state_invariant after fun _ _ _ holds step => holds.step step).published
  · rintro safe client rfl
    cases written : net.flushing client with
    | none => rfl
    | some name =>
        obtain ⟨more, final, continued, lost⟩ := consistent.upload_partial written step
        exact absurd (safe more final continued) lost

/-- A finished file reaches the server and the other client as it is. -/
theorem published_of_whole_copied
    : ∃ net, Run WholeStep (empty : Network Bool)
          [.create false [84, 82, 69, 69, 45, 48], .grow false 2, .finish false, .upload false,
            .upload true, .download true] net
        ∧ net.dir true [84, 82, 69, 69, 45, 48] = some [.byte 0, .byte 0]
        ∧ net.Published
        ∧ ∀ event next, net.step event = some next
          → (∀ name final, net.finished name = some final → next.finished name = some final)
            ∧ (net.Whole event
              ↔ ∀ more final, Run WholeStep next more final → final.Published) := by
  obtain ⟨net, run, copied⟩
      : ∃ net, Run WholeStep (empty : Network Bool)
          [.create false [84, 82, 69, 69, 45, 48], .grow false 2, .finish false, .upload false,
            .upload true, .download true] net
        ∧ net.dir true [84, 82, 69, 69, 45, 48] = some [.byte 0, .byte 0] := by
    refine ⟨_, .snoc (.snoc (.snoc (.snoc (.snoc (.snoc .nil ⟨?_, rfl⟩) ⟨?_, rfl⟩) ⟨?_, rfl⟩)
      ⟨?_, rfl⟩) ⟨?_, rfl⟩) ⟨?_, rfl⟩, rfl⟩ <;>
    · intro client upload
      cases client <;> first | rfl | exact nomatch upload
  exact ⟨net, run, copied, published_of_whole run⟩

end Network

/-- A sync round that finds a tree file just created sends an empty file to the server and to the
other client, which both keep it when the flush has written the whole index.
-/
theorem published_fails
    : ∃ index events net,
        addAll ⟨fun _ => Vector.replicate 32 0, fun _ => 0⟩ ⟨1, 2, 1, 2⟩
            [oneBlockCall [65] [47, 97] [1, 2] 7] = .ok index
        ∧ Run (fun net event next => net.step event = some next) (.empty : Network Bool) events net
        ∧ net.finished [84, 82, 69, 69, 45, 48] = some index.mem.file
        ∧ net.server [84, 82, 69, 69, 45, 48] = some []
        ∧ net.dir true [84, 82, 69, 69, 45, 48] = some []
        ∧ ¬ net.Published := by
  have fits : (⟨1, 2, 1, 2⟩ : Capacities).Respected [oneBlockCall [65] [47, 97] [1, 2] 7] :=
    ⟨by decide, by decide, by decide, by decide⟩
  obtain ⟨index, _, _, _, outcome, _⟩ := addAll_built
    ⟨fun _ => Vector.replicate 32 0, fun _ => 0⟩ (by decide) fits
    ⟨by decide, by decide, by decide⟩
  have laid := addAll_laid (by decide) fits (by decide) outcome
  have long : index.mem.file ≠ [] := by
    intro empty
    have size : index.mem.curSize = 0 := by
      simpa [TireFire.file] using congrArg List.length empty
    obtain ⟨nodes, frontier⟩ := laid.shaped.frontier
    have room := laid.shaped.room
    omega
  -- the file is created, and both scripts run before the flush goes on
  obtain ⟨middle, start, opened, served, received⟩
      : ∃ middle, Run (fun net event next => net.step event = some next) (.empty : Network Bool)
          [.create false [84, 82, 69, 69, 45, 48], .upload false, .upload true, .download true,
            .download false] middle
        ∧ middle.openFile false = some ([84, 82, 69, 69, 45, 48], [])
        ∧ middle.server [84, 82, 69, 69, 45, 48] = some []
        ∧ middle.dir true [84, 82, 69, 69, 45, 48] = some [] :=
    ⟨_, .snoc (.snoc (.snoc (.snoc (.snoc .nil rfl) rfl) rfl) rfl) rfl, rfl, rfl, rfl⟩
  have length : index.mem.file.length = ([] : List Cell).length + index.mem.file.length := by
    simp
  obtain ⟨last, finish, finished, server, dirs⟩ :=
    Network.exists_finish opened index.mem.file.length length
  refine ⟨index, _, last, outcome, start.append (finish.weaken fun _ _ _ step => step.2), finished,
    server ▸ served, by rw [dirs true (by decide), received], fun published => ?_⟩
  exact long ((published _ _ finished).1 [] (server ▸ served)).symm

end Network

end Sync

end ZippyFS
