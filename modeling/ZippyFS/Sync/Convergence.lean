import ZippyFS.Sync.Publication

/-! Replicas of the tree directory. A finished file stays where it is, its author's next upload
puts it on the server, and from there every client's next download brings it home. Once the
flushes rest, one upload and then one download of every client make all directories equal.
-/

namespace ZippyFS.Sync

open CellMemory Runs

/-- The steps of the sync scripts. -/
def Event.isSync {Client : Type} : Event Client → Bool
  | .upload _ | .download _ => true
  | .create _ _ | .grow _ _ | .fill _ _ | .finish _ => false

namespace Network

variable {Client : Type} [DecidableEq Client] {net next last : Network Client}
  {event : Event Client} {name : Bytes} {final : List Cell} {client other : Client}

-----------------------------------------------------------------------------------------
-- What is where
-----------------------------------------------------------------------------------------

/-- A finished file is in its author's directory, and apart from the file that a client writes
there are finished files only.
-/
structure Sourced (net : Network Client) : Prop where
  consistent : net.Consistent
  held
    : ∀ name final, net.finished name = some final
      → ∃ client, net.author name = some client ∧ net.dir client name = some final
  known
    : ∀ client name bytes, net.dir client name = some bytes
      → net.finished name = some bytes ∨ net.flushing client = some name
  served : ∀ name bytes, net.server name = some bytes → net.finished name = some bytes

omit [DecidableEq Client] in
/-- Nothing is anywhere at first. -/
theorem Sourced.empty : (empty : Network Client).Sourced where
  consistent := .empty
  held := fun _ _ done => nomatch done
  known := fun _ _ _ there => nomatch there
  served := fun _ _ there => nomatch there

omit [DecidableEq Client] in
/-- The file that a client writes is not finished. -/
theorem Sourced.name_ne (sourced : net.Sourced) (done : net.finished name = some final)
    {path : Bytes} (written : net.flushing client = some path)
    : name ≠ path := by
  rintro rfl
  have unfinished := (sourced.consistent.writing client name written).2.1
  exact nomatch unfinished.symm.trans done

/-- Another file of a client stays when one is written. -/
theorem withFile_of_ne (net : Network Client) {path : Bytes} (bytes : List Cell)
    (apart : name ≠ path) (other : Client)
    : (net.withFile client path bytes).dir other name = net.dir other name :=
  withFile_other bytes (Or.inr apart)

/-- What a client may do to the file that it writes keeps every other file's source. -/
theorem Sourced.withFile (sourced : net.Sourced) (written : net.flushing client = some name)
    (bytes : List Cell)
    : (net.withFile client name bytes).Sourced where
  consistent := sourced.consistent.withFile written bytes
  held := by
    intro path final done
    obtain ⟨author, wrote, there⟩ := sourced.held path final done
    exact ⟨author, wrote,
      (withFile_of_ne net bytes (sourced.name_ne done written) author).trans there⟩
  known := by
    intro holder path copy there
    by_cases same : holder = client ∧ path = name
    · obtain ⟨rfl, rfl⟩ := same
      exact Or.inr written
    · rw [withFile_other bytes (not_and_or.mp same)] at there
      exact sourced.known holder path copy there
  served := sourced.served

/-- A file that is created is the one its author writes. -/
theorem Sourced.create (sourced : net.Sourced) (idle : net.flushing client = none)
    (unused : net.author name = none)
    : Sourced { net.withFile client name [] with
        flushing := Function.update net.flushing client (some name)
        author := Function.update net.author name (some client) } where
  consistent := sourced.consistent.create idle unused
  held := by
    intro path final done
    obtain ⟨author, wrote, there⟩ := sourced.held path final done
    have apart : path ≠ name := by
      rintro rfl
      exact nomatch unused.symm.trans wrote
    exact ⟨author, by simpa [apart] using wrote,
      (withFile_of_ne net [] apart author).trans there⟩
  known := by
    intro holder path copy there
    by_cases same : holder = client ∧ path = name
    · obtain ⟨rfl, rfl⟩ := same
      exact Or.inr (Function.update_self ..)
    · have there : (net.withFile client name []).dir holder path = some copy := there
      rw [withFile_other [] (not_and_or.mp same)] at there
      refine (sourced.known holder path copy there).imp_right fun written => ?_
      have apart : holder ≠ client := by
        rintro rfl
        exact nomatch idle.symm.trans written
      exact (Function.update_of_ne apart ..).trans written
  served := sourced.served

/-- A flush that ends leaves its file in its author's directory. -/
theorem Sourced.finish (sourced : net.Sourced) {bytes : List Cell}
    (written : net.flushing client = some name) (there : net.dir client name = some bytes)
    : Sourced { net with
        flushing := Function.update net.flushing client none
        finished := Function.update net.finished name (some bytes) } where
  consistent := sourced.consistent.finish written there
  held := by
    intro path final done
    by_cases same : path = name
    · subst same
      obtain rfl : bytes = final := by simpa using done
      exact ⟨client, (sourced.consistent.writing client path written).1, there⟩
    · simp only [Function.update_of_ne same] at done
      exact sourced.held path final done
  known := by
    intro holder path copy held
    by_cases same : path = name
    · subst same
      obtain rfl : holder = client := by
        by_contra apart
        have absent := (sourced.consistent.writing client path written).2.2.2.2 holder apart
        exact nomatch absent.symm.trans held
      exact Or.inl ((Function.update_self ..).trans (there.symm.trans held))
    · refine (sourced.known holder path copy held).imp (fun done => ?_) fun writes => ?_
      · exact (Function.update_of_ne same ..).trans done
      · have apart : holder ≠ client := by
          rintro rfl
          exact same (Option.some.inj (writes.symm.trans written))
        exact (Function.update_of_ne apart ..).trans writes
  served := by
    intro path bytes copied
    have done := sourced.served path bytes copied
    exact (Function.update_of_ne (sourced.name_ne done written) ..).trans done

/-- An upload beside no flush of the same client sends finished files. -/
theorem Sourced.upload (sourced : net.Sourced) (idle : net.flushing client = none)
    : Sourced { net with
        server := rsync (net.dir client) net.server
        uploaded := Function.update net.uploaded client true } where
  consistent := sourced.consistent.upload idle
  held := sourced.held
  known := sourced.known
  served := by
    intro path bytes copied
    rcases rsync_eq_some copied with before | ⟨_, sent⟩
    · exact sourced.served path bytes before
    · refine (sourced.known client path bytes sent).resolve_right fun written => ?_
      exact nomatch idle.symm.trans written

/-- A download brings finished files. -/
theorem Sourced.download (sourced : net.Sourced) (client : Client)
    : Sourced { net with
        dir := Function.update net.dir client (rsync net.server (net.dir client))
        uploaded := Function.update net.uploaded client false } where
  consistent := sourced.consistent.download client
  held := by
    intro path final done
    obtain ⟨author, wrote, there⟩ := sourced.held path final done
    refine ⟨author, wrote, ?_⟩
    by_cases same : author = client
    · subst same
      simp [rsync, there]
    · exact (congrFun (Function.update_of_ne same ..) path).trans there
  known := by
    intro holder path copy held
    by_cases same : holder = client
    · subst same
      simp only [Function.update_self] at held
      rcases rsync_eq_some held with before | ⟨_, received⟩
      · exact sourced.known holder path copy before
      · exact Or.inl (sourced.served path copy received)
    · simp only [Function.update_of_ne same] at held
      exact sourced.known holder path copy held
  served := sourced.served

/-- A step in which no unfinished file is uploaded keeps the sources. -/
theorem Sourced.step (sourced : net.Sourced) (step : net.WholeStep event next)
    : next.Sourced := by
  obtain ⟨whole, taken⟩ := step
  cases event with
  | create client name =>
      simp only [Network.step] at taken
      split at taken
      · next free =>
          obtain rfl := Option.some.inj taken
          exact sourced.create free.1 free.2
      · cases taken
  | grow client size =>
      obtain ⟨⟨name, bytes⟩, written, taken⟩ := Option.bind_eq_some_iff.mp taken
      obtain rfl := Option.some.inj taken
      exact sourced.withFile (openFile_eq_some.mp written).1 _
  | fill client bytes =>
      obtain ⟨⟨name, old⟩, written, taken⟩ := Option.bind_eq_some_iff.mp taken
      simp only at taken
      split at taken
      · obtain rfl := Option.some.inj taken
        exact sourced.withFile (openFile_eq_some.mp written).1 _
      · cases taken
  | finish client =>
      obtain ⟨⟨name, bytes⟩, written, taken⟩ := Option.bind_eq_some_iff.mp taken
      obtain rfl := Option.some.inj taken
      obtain ⟨open_, there⟩ := openFile_eq_some.mp written
      exact sourced.finish open_ there
  | upload client =>
      simp only [Network.step] at taken
      split at taken
      · cases taken
      · obtain rfl := Option.some.inj taken
        exact sourced.upload (whole client rfl)
  | download client =>
      simp only [Network.step] at taken
      split at taken
      · obtain rfl := Option.some.inj taken
        exact sourced.download client
      · cases taken

-----------------------------------------------------------------------------------------
-- What stays
-----------------------------------------------------------------------------------------

/-- A finished file stays where it is, and what the server has stays there. -/
structure Keeps (net next : Network Client) : Prop where
  finished
    : ∀ name final, net.finished name = some final → next.finished name = some final
  server : ∀ name final, net.server name = some final → next.server name = some final
  dir
    : ∀ client name final, net.finished name = some final → net.dir client name = some final
      → next.dir client name = some final

omit [DecidableEq Client] in
theorem Keeps.refl (net : Network Client) : net.Keeps net :=
  ⟨fun _ _ done => done, fun _ _ there => there, fun _ _ _ _ there => there⟩

omit [DecidableEq Client] in
theorem Keeps.trans (first : net.Keeps next) (second : next.Keeps last) : net.Keeps last where
  finished := fun name final done => second.finished name final (first.finished name final done)
  server := fun name final there => second.server name final (first.server name final there)
  dir := fun client name final done there =>
    second.dir client name final (first.finished name final done)
      (first.dir client name final done there)

/-- The server keeps what it has. -/
theorem server_kept (step : net.step event = some next) (there : net.server name = some final)
    : next.server name = some final := by
  cases event with
  | create client path =>
      simp only [Network.step] at step
      split at step
      · obtain rfl := Option.some.inj step
        exact there
      · cases step
  | grow client size =>
      obtain ⟨_, _, step⟩ := Option.bind_eq_some_iff.mp step
      obtain rfl := Option.some.inj step
      exact there
  | fill client bytes =>
      obtain ⟨⟨path, old⟩, _, step⟩ := Option.bind_eq_some_iff.mp step
      simp only at step
      split at step
      · obtain rfl := Option.some.inj step
        exact there
      · cases step
  | finish client =>
      obtain ⟨_, _, step⟩ := Option.bind_eq_some_iff.mp step
      obtain rfl := Option.some.inj step
      exact there
  | upload client =>
      simp only [Network.step] at step
      split at step
      · cases step
      · obtain rfl := Option.some.inj step
        simp [rsync, there]
  | download client =>
      simp only [Network.step] at step
      split at step
      · obtain rfl := Option.some.inj step
        exact there
      · cases step

/-- Every client keeps the finished files that it has. -/
theorem Sourced.dir_kept (sourced : net.Sourced) (step : net.step event = some next)
    (done : net.finished name = some final) (there : net.dir other name = some final)
    : next.dir other name = some final := by
  cases event with
  | create client path =>
      simp only [Network.step] at step
      split at step
      · next free =>
          obtain rfl := Option.some.inj step
          have apart : name ≠ path := by
            rintro rfl
            cases (sourced.consistent.unused name free.2).1.symm.trans done
          exact (withFile_of_ne net [] apart other).trans there
      · cases step
  | grow client size =>
      obtain ⟨⟨path, bytes⟩, written, step⟩ := Option.bind_eq_some_iff.mp step
      obtain rfl := Option.some.inj step
      have apart := sourced.name_ne done (openFile_eq_some.mp written).1
      exact (withFile_of_ne net _ apart other).trans there
  | fill client bytes =>
      obtain ⟨⟨path, old⟩, written, step⟩ := Option.bind_eq_some_iff.mp step
      simp only at step
      split at step
      · obtain rfl := Option.some.inj step
        have apart := sourced.name_ne done (openFile_eq_some.mp written).1
        exact (withFile_of_ne net bytes apart other).trans there
      · cases step
  | finish client =>
      obtain ⟨_, _, step⟩ := Option.bind_eq_some_iff.mp step
      obtain rfl := Option.some.inj step
      exact there
  | upload client =>
      simp only [Network.step] at step
      split at step
      · cases step
      · obtain rfl := Option.some.inj step
        exact there
  | download client =>
      simp only [Network.step] at step
      split at step
      · obtain rfl := Option.some.inj step
        by_cases same : other = client
        · subst same
          simp [rsync, there]
        · exact (congrFun (Function.update_of_ne same ..) name).trans there
      · cases step

/-- Every step keeps finished files. -/
theorem Sourced.keeps (sourced : net.Sourced) (step : net.step event = some next)
    : net.Keeps next where
  finished := fun _ _ done => sourced.consistent.finished_kept step done
  server := fun _ _ there => server_kept step there
  dir := fun _ _ _ done there => sourced.dir_kept step done there

/-- So does every run, by induction on it. -/
theorem Sourced.keeps_run {events : List (Event Client)} (sourced : net.Sourced)
    (run : Run WholeStep net events next)
    : next.Sourced ∧ net.Keeps next :=
  run.state_invariant (P := fun state => state.Sourced ∧ net.Keeps state) ⟨sourced, .refl net⟩
    fun _ _ _ holds step => ⟨holds.1.step step, holds.2.trans (holds.1.keeps step.2)⟩

-----------------------------------------------------------------------------------------
-- What travels
-----------------------------------------------------------------------------------------

/-- An upload sends every finished file of its client. -/
theorem Sourced.upload_server (sourced : net.Sourced)
    (step : net.WholeStep (.upload client) next) (done : net.finished name = some final)
    (there : net.dir client name = some final)
    : next.server name = some final := by
  have taken := step.2
  simp only [Network.step] at taken
  split at taken
  · cases taken
  · obtain rfl := Option.some.inj taken
    cases copied : net.server name with
    | none => simp [rsync, copied, there]
    | some copy =>
        obtain rfl := (sourced.consistent.published name final done).1 copy copied
        simp [rsync, copied]

/-- A download brings every finished file of the server. -/
theorem Sourced.download_dir (sourced : net.Sourced) (step : net.WholeStep (.download client) next)
    (done : net.finished name = some final) (there : net.server name = some final)
    : next.dir client name = some final := by
  have taken := step.2
  simp only [Network.step] at taken
  split at taken
  · obtain rfl := Option.some.inj taken
    cases held : net.dir client name with
    | none => simp [rsync, held, there]
    | some copy =>
        obtain rfl := (sourced.consistent.published name final done).2 client copy held
        simp [rsync, held]
  · cases taken

/-- A run with an upload leaves the finished files of that client on the server. -/
theorem Sourced.uploaded_run {events : List (Event Client)} (sourced : net.Sourced)
    (run : Run WholeStep net events next) (sends : .upload client ∈ events)
    (done : net.finished name = some final) (there : net.dir client name = some final)
    : next.server name = some final := by
  obtain ⟨before, after, state, middle, -, first, step, rest⟩ := run.split_mem sends
  obtain ⟨here, kept⟩ := sourced.keeps_run first
  have sent := here.upload_server step (kept.finished name final done)
    (kept.dir client name final done there)
  exact ((here.step step).keeps_run rest).2.server name final sent

/-- A run with a download leaves the server's finished files with that client. -/
theorem Sourced.downloaded_run {events : List (Event Client)} (sourced : net.Sourced)
    (run : Run WholeStep net events next) (fetches : .download client ∈ events)
    (done : net.finished name = some final) (there : net.server name = some final)
    : next.dir client name = some final := by
  obtain ⟨before, after, state, middle, -, first, step, rest⟩ := run.split_mem fetches
  obtain ⟨here, kept⟩ := sourced.keeps_run first
  have finished := kept.finished name final done
  have received := here.download_dir step finished (kept.server name final there)
  obtain ⟨-, kept⟩ := (here.step step).keeps_run rest
  exact kept.dir client name final ((here.keeps step.2).finished name final finished) received

/-- Once its author has uploaded, and another client has downloaded after that, a finished file is
on the server and in both directories, with the bytes it was finished with, whatever else happens
meanwhile and later.
-/
theorem delivered {start sending rest : List (Event Client)}
    (run : Run WholeStep (empty : Network Client) start net)
    (done : net.finished name = some final) (wrote : net.author name = some client)
    (continued : Run WholeStep net (sending ++ rest) next) (sends : .upload client ∈ sending)
    (fetches : .download other ∈ rest)
    : next.finished name = some final ∧ next.server name = some final
      ∧ next.dir client name = some final ∧ next.dir other name = some final := by
  obtain ⟨sourced, -⟩ := Sourced.empty.keeps_run run
  obtain ⟨author, named, there⟩ := sourced.held name final done
  obtain rfl : author = client := Option.some.inj (named.symm.trans wrote)
  obtain ⟨middle, first, second⟩ := continued.split_append
  obtain ⟨here, kept⟩ := sourced.keeps_run first
  have finished := kept.finished name final done
  have sent := sourced.uploaded_run first sends done there
  obtain ⟨-, later⟩ := here.keeps_run second
  exact ⟨later.finished name final finished, later.server name final sent,
    later.dir author name final finished (kept.dir author name final done there),
    here.downloaded_run second fetches finished sent⟩

/-- The upload of a client that writes nothing is one that finds no unfinished file. -/
theorem step_upload {client : Client} (idle : net.flushing client = none)
    (taken : net.step (.upload client) = some next)
    : net.WholeStep (.upload client) next :=
  ⟨fun other upload => by
    cases upload
    exact idle, taken⟩

/-- Every other step is, too. -/
theorem step_other (other : ∀ client, event ≠ .upload client) (taken : net.step event = some next)
    : net.WholeStep event next :=
  ⟨fun client upload => absurd upload (other client), taken⟩

/-- A client flushes a file of two zeros, and the other one fetches it. -/
theorem delivered_copied
    : ∃ net next, Run WholeStep (empty : Network Bool)
          [.create false [84, 82, 69, 69, 45, 48], .grow false 2, .finish false] net
        ∧ Run WholeStep net ([.upload true, .upload false] ++ [.download true]) next
        ∧ next.finished [84, 82, 69, 69, 45, 48] = some [.byte 0, .byte 0]
        ∧ next.server [84, 82, 69, 69, 45, 48] = some [.byte 0, .byte 0]
        ∧ next.dir false [84, 82, 69, 69, 45, 48] = some [.byte 0, .byte 0]
        ∧ next.dir true [84, 82, 69, 69, 45, 48] = some [.byte 0, .byte 0] := by
  obtain ⟨net, run, done, wrote, next, continued⟩
      : ∃ net, Run WholeStep (empty : Network Bool)
          [.create false [84, 82, 69, 69, 45, 48], .grow false 2, .finish false] net
        ∧ net.finished [84, 82, 69, 69, 45, 48] = some [.byte 0, .byte 0]
        ∧ net.author [84, 82, 69, 69, 45, 48] = some false
        ∧ ∃ next, Run WholeStep net ([.upload true, .upload false] ++ [.download true]) next :=
    ⟨_, .snoc (.snoc (.snoc .nil (step_other (by simp) rfl)) (step_other (by simp) rfl))
      (step_other (by simp) rfl), rfl, rfl, _,
      .snoc (.snoc (.snoc .nil (step_upload rfl rfl)) (step_upload rfl rfl))
        (step_other (by simp) rfl)⟩
  exact ⟨net, next, run, continued,
    delivered run done wrote continued (by simp) (List.mem_singleton_self _)⟩

-----------------------------------------------------------------------------------------
-- Equal replicas
-----------------------------------------------------------------------------------------

/-- The scripts neither start a flush nor end one. -/
theorem sync_same (script : event.isSync = true) (step : net.step event = some next)
    : next.flushing = net.flushing ∧ next.finished = net.finished := by
  cases event with
  | upload client =>
      simp only [Network.step] at step
      split at step
      · cases step
      · obtain rfl := Option.some.inj step
        exact ⟨rfl, rfl⟩
  | download client =>
      simp only [Network.step] at step
      split at step
      · obtain rfl := Option.some.inj step
        exact ⟨rfl, rfl⟩
      · cases step
  | create | grow | fill | finish => cases script

/-- Nor does a run of them. -/
theorem sync_run_same {events : List (Event Client)}
    (scripts : ∀ event ∈ events, event.isSync = true) (run : Run WholeStep net events next)
    : next.flushing = net.flushing ∧ next.finished = net.finished := by
  refine run.recorded.state_invariant
    (P := fun state => state.flushing = net.flushing ∧ state.finished = net.finished) ⟨rfl, rfl⟩ ?_
  rintro state event next ⟨flushing, finished⟩ ⟨member, step⟩
  obtain ⟨same, also⟩ := sync_same (scripts event member) step.2
  exact ⟨same.trans flushing, also.trans finished⟩

/-- When no flush is going on and every client uploads, the server gets exactly the finished files.
-/
theorem Sourced.server_eq {events : List (Event Client)} (sourced : net.Sourced)
    (scripts : ∀ event ∈ events, event.isSync = true) (run : Run WholeStep net events next)
    (sends : ∀ client, .upload client ∈ events)
    : next.server = net.finished := by
  obtain ⟨here, -⟩ := sourced.keeps_run run
  obtain ⟨-, same⟩ := sync_run_same scripts run
  funext name
  apply Option.ext
  intro bytes
  constructor
  · intro there
    exact same ▸ here.served name bytes there
  · intro done
    obtain ⟨author, -, there⟩ := sourced.held name bytes done
    exact sourced.uploaded_run run (sends author) done there

/-- When no flush is going on and every client uploads and then downloads, every directory and the
server get exactly the finished files.
-/
theorem Sourced.settled {sending fetching : List (Event Client)} (sourced : net.Sourced)
    (idle : ∀ client, net.flushing client = none)
    (continued : Run WholeStep net (sending ++ fetching) next)
    (scripts : ∀ event ∈ sending ++ fetching, event.isSync = true)
    (sends : ∀ client, .upload client ∈ sending)
    (fetches : ∀ client, .download client ∈ fetching)
    : next.server = net.finished ∧ ∀ client, next.dir client = net.finished := by
  obtain ⟨flushing, finished⟩ := sync_run_same scripts continued
  obtain ⟨middle, first, second⟩ := continued.split_append
  have early : ∀ event ∈ sending, event.isSync = true := fun event member =>
    scripts event (List.mem_append_left _ member)
  have served := sourced.server_eq early first sends
  obtain ⟨-, same⟩ := sync_run_same early first
  obtain ⟨here, -⟩ := sourced.keeps_run first
  obtain ⟨there, kept⟩ := here.keeps_run second
  constructor
  · funext name
    apply Option.ext
    intro bytes
    constructor
    · intro held
      exact finished ▸ there.served name bytes held
    · intro done
      exact kept.server name bytes (served ▸ done)
  · intro client
    funext name
    apply Option.ext
    intro bytes
    constructor
    · intro held
      refine finished ▸ (there.known client name bytes held).resolve_right fun writes => ?_
      rw [flushing, idle client] at writes
      cases writes
    · intro done
      exact here.downloaded_run second (fetches client) (same ▸ done) (served ▸ done)

/-- When every client uploads and then every client downloads while no flush is going on, in any
order otherwise, the server and all directories hold exactly the files that were finished.
-/
theorem converges {start sending fetching : List (Event Client)}
    (run : Run WholeStep (empty : Network Client) start net)
    (idle : ∀ client, net.flushing client = none)
    (continued : Run WholeStep net (sending ++ fetching) next)
    (scripts : ∀ event ∈ sending ++ fetching, event.isSync = true)
    (sends : ∀ client, .upload client ∈ sending)
    (fetches : ∀ client, .download client ∈ fetching)
    : next.finished = net.finished ∧ next.server = net.finished
      ∧ ∀ client, next.dir client = net.finished := by
  obtain ⟨sourced, -⟩ := Sourced.empty.keeps_run run
  exact ⟨(sync_run_same scripts continued).2,
    sourced.settled idle continued scripts sends fetches⟩

/-- Two clients, of which one has flushed, end with the same directory. -/
theorem converges_two
    : ∃ net next, Run WholeStep (empty : Network Bool)
          [.create false [84, 82, 69, 69, 45, 48], .grow false 2, .finish false] net
        ∧ net.finished [84, 82, 69, 69, 45, 48] = some [.byte 0, .byte 0]
        ∧ Run WholeStep net
          ([.upload true, .upload false] ++ [.download false, .download true]) next
        ∧ next.finished = net.finished ∧ next.server = net.finished
        ∧ ∀ client, next.dir client = net.finished := by
  obtain ⟨net, run, done, idle, next, continued⟩
      : ∃ net, Run WholeStep (empty : Network Bool)
          [.create false [84, 82, 69, 69, 45, 48], .grow false 2, .finish false] net
        ∧ net.finished [84, 82, 69, 69, 45, 48] = some [.byte 0, .byte 0]
        ∧ (∀ client, net.flushing client = none)
        ∧ ∃ next, Run WholeStep net
          ([.upload true, .upload false] ++ [.download false, .download true]) next :=
    ⟨_, .snoc (.snoc (.snoc .nil (step_other (by simp) rfl)) (step_other (by simp) rfl))
      (step_other (by simp) rfl), rfl, fun client => by cases client <;> rfl, _,
      .snoc (.snoc (.snoc (.snoc .nil (step_upload rfl rfl)) (step_upload rfl rfl))
        (step_other (by simp) rfl)) (step_other (by simp) rfl)⟩
  refine ⟨net, next, run, done, continued, converges run idle continued ?_ ?_ ?_⟩
  · decide
  · intro client
    cases client <;> simp
  · intro client
    cases client <;> simp

end Network

end ZippyFS.Sync
