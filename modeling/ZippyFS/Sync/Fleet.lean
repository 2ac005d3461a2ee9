import ZippyFS.Sync.SharedListing

/-! The whole system. Every client runs a file system over its directory, and its sync script
exchanges finished files with the server at any time. What one client flushed is in the end what
all of them list.
-/

namespace ZippyFS

open CellMemory Runs NewestWins

-----------------------------------------------------------------------------------------
-- Clients and their directories
-----------------------------------------------------------------------------------------

/-- The caches of all clients, and the directories between them. `log` records the path, the time
and the deletion mark of every inode that was flushed, one list for each flush.
-/
structure Fleet (Client : Type) where
  cache : Client → BlockCache
  net : Sync.Network Client
  log : List (List IndexEntry)

/-- What happens next: a client's call, a new process of a client, or a step between directories. -/
inductive Act (Client : Type) where
  | call (client : Client) (event : Event)
  | restart (client : Client) (order : VisitOrder) (size : Nat)
  | step (event : Sync.Event Client)

/-- The step between directories that an act is. -/
def Act.script {Client : Type} : Act Client → Option (Sync.Event Client)
  | .step event => some event
  | .call _ _ | .restart _ _ _ => none

/-- What a flush says about each cached inode. -/
def BlockCache.flushEntries (cache : BlockCache) : List IndexEntry :=
  cache.inodeIdx.toList.filterMap (fun ent =>
    (cache.find ent.1).map (fun inode => ⟨ent.1, inode.ulMtime, inode.deleted⟩))

/-- The cache over what its directory holds now. -/
def BlockCache.onDisk (cache : BlockCache) (disk : List Image) : BlockCache :=
  { cache with disk := disk }

namespace Fleet

variable {Client : Type} [DecidableEq Client]

/-- New processes over empty directories. -/
def start (order : VisitOrder) (size : Nat) : Fleet Client :=
  ⟨fun _ => .new [] order size, .empty, []⟩

/-- One client's cache changes. -/
def update (fleet : Fleet Client) (client : Client) (cache : BlockCache) : Fleet Client :=
  { fleet with cache := Function.update fleet.cache client cache }

/-- A call that writes a file comes with the steps that create, grow and fill it, and ends when the
file holds the index; meanwhile other clients and all scripts go on. No script uploads while its
own client is writing.
-/
inductive Moves (env : Env) (fleet : Fleet Client) : Act Client → Fleet Client → Prop
  | call {client : Client} {event : Event} {disk : List Image} {next : BlockCache}
    (idle : fleet.net.flushing client = none) (mounts : Mounts (fleet.net.dir client) disk)
    (taken : Steps env ((fleet.cache client).onDisk disk) event next) (same : next.disk = disk)
    : Moves env fleet (.call client event) (fleet.update client next)
  | restart {client : Client} {order : VisitOrder} {size : Nat} {disk : List Image}
    (idle : fleet.net.flushing client = none) (mounts : Mounts (fleet.net.dir client) disk)
    : Moves env fleet (.restart client order size) (fleet.update client (.new disk order size))
  | flush {client : Client} {event : Event} {disk : List Image} {next : BlockCache} {name : Bytes}
    {image : Image} {net : Sync.Network Client} (writes : fleet.net.flushing client = some name)
    (mounts : Mounts (Function.update (fleet.net.dir client) name none) disk)
    (taken : Steps env ((fleet.cache client).onDisk disk) event next)
    (added : next.disk = disk ++ [image]) (filled : fleet.net.dir client name = some image.file)
    (finished : fleet.net.step (.finish client) = some net)
    : Moves env fleet (.call client event)
        { fleet.update client next with
          net := net
          log := fleet.log ++ [(fleet.cache client).flushEntries] }
  | step {event : Sync.Event Client} {net : Sync.Network Client}
    (unfinished : ∀ client, event ≠ .finish client)
    (tree : ∀ client name, event = .create client name → BPLUSIndexLoader.isTreeName name = true)
    (taken : fleet.net.WholeStep event net)
    : Moves env fleet (.step event) { fleet with net := net }

end Fleet

-----------------------------------------------------------------------------------------
-- What a flush writes
-----------------------------------------------------------------------------------------

namespace BlockCache

variable {env : Env} {names : Set Bytes} {cache next : BlockCache} {disk : List Image}
  {now : Clock} {op : Op} {result : Int} {image : Image}

/-- Other files on disk change nothing in the cache. -/
theorem Filed.onDisk (filed : Filed env names cache) (shelved : Shelved env disk)
    : Filed env names (cache.onDisk disk) where
  coherent := ⟨⟨filed.coherent.pointed.entries, filed.coherent.pointed.pointers⟩,
    filed.coherent.own, filed.coherent.apart⟩
  stamped := filed.stamped.congr rfl
  disk := shelved
  loader := filed.loader

/-- The records of a flush describe the cached inodes. -/
theorem Coherent.flushCalls_flushEntries (coherent : Coherent env names cache)
    : cache.flushCalls.map AddCall.entry = cache.flushEntries := by
  rw [flushCalls, flushEntries, List.map_filterMap]
  refine List.filterMap_congr fun ent _ => ?_
  cases found : cache.find ent.1 with
  | none => rfl
  | some inode =>
      have own := coherent.own ent.1 inode found
      simp [AddCall.entry, flushCall, own]

/-- A flush says one thing about a path. -/
theorem flushEntries_unique {one two : IndexEntry} (first : one ∈ cache.flushEntries)
    (second : two ∈ cache.flushEntries) (same : one.path = two.path)
    : one = two := by
  obtain ⟨ent, -, made⟩ := List.mem_filterMap.mp first
  obtain ⟨inode, found, rfl⟩ := Option.map_eq_some_iff.mp made
  obtain ⟨other, -, made'⟩ := List.mem_filterMap.mp second
  obtain ⟨inode', found', rfl⟩ := Option.map_eq_some_iff.mp made'
  obtain rfl := Option.some.inj (found.symm.trans ((congrArg cache.find same).trans found'))
  exact congrArg (fun path => (⟨path, inode.ulMtime, inode.deleted⟩ : IndexEntry)) same

/-- A call that adds a file to the disk has flushed the cached inodes. -/
theorem Filed.added (filed : Filed env names cache) (valid : ∀ path ∈ names, IsFilePath path)
    (effect : Effect env now cache op result next) (added : next.disk = cache.disk ++ [image])
    : ∃ file : FlushedFile env,
        file.image = image ∧ file.calls.map AddCall.entry = cache.flushEntries := by
  have longer {disk : List Image} (same : disk = cache.disk) : disk ≠ cache.disk ++ [image] := by
    rw [same]
    simp
  rcases effect.disk with same | ⟨-, flushed⟩ | ⟨order, rfl⟩
  · exact absurd added (longer same.disk)
  · obtain ⟨-, same | ⟨_, some, wrote⟩⟩ := flushed.added filed.coherent.pointed
      (fun _ => filed.coherent.flushFits)
    · exact absurd added (longer same)
    · obtain ⟨file, made⟩ := filed.flushedFile valid some
      have last := List.append_cancel_left (wrote.symm.trans added)
      refine ⟨file, by rw [← List.singleton_inj.mp last, made], ?_⟩
      rw [made]
      exact filed.coherent.flushCalls_flushEntries
  · exact absurd added (longer rfl)

end BlockCache

-----------------------------------------------------------------------------------------
-- Every run
-----------------------------------------------------------------------------------------

namespace Fleet

variable {Client : Type} [DecidableEq Client] {env : Env} {names : Set Bytes}
  {fleet next : Fleet Client} {act : Act Client}

/-- What is known along a run: finished files are those of the flushes in the log. -/
structure Sound (env : Env) (names : Set Bytes) (fleet : Fleet Client) : Prop where
  sourced : fleet.net.Sourced
  trees
    : ∀ client name, fleet.net.flushing client = some name
      → BPLUSIndexLoader.isTreeName name = true
  filed : ∀ client, BlockCache.Filed env names (fleet.cache client)
  recorded
    : ∃ files : List (Bytes × FlushedFile env), Holds fleet.net.finished files
        ∧ fleet.log = files.map (fun file => file.2.calls.map AddCall.entry)

omit [DecidableEq Client] in
/-- At first there is no file. -/
theorem Sound.start (apart : Set.InjOn (Util.cryptoHash env) names) (order : VisitOrder)
    (size : Nat)
    : Sound env names (start order size : Fleet Client) where
  sourced := .empty
  trees := fun _ _ writes => nomatch writes
  filed := fun _ => .restart (by simp [Shelved]) apart order size
  recorded := ⟨[], .empty, rfl⟩

omit [DecidableEq Client] in
/-- A loader over finished files gets what flushes wrote. -/
theorem Sound.shelved (sound : Sound env names fleet) {directory : Bytes → Option (List Cell)}
    {disk : List Image} (mounts : Mounts directory disk)
    (known : ∀ name bytes, directory name = some bytes → fleet.net.finished name = some bytes)
    : Shelved env disk := by
  obtain ⟨files, holds, -⟩ := sound.recorded
  obtain ⟨trees, -, listed, rfl⟩ := mounts
  intro image member
  obtain ⟨name, inside, made⟩ := List.mem_filterMap.mp member
  obtain ⟨bytes, there, rfl⟩ := Option.map_eq_some_iff.mp made
  obtain ⟨file, -, rfl⟩ := (holds.contents name bytes).mp
    ⟨((listed name).mp inside).1, known name bytes there⟩
  exact ⟨file, file.mapped_eq.symm⟩

omit [DecidableEq Client] in
/-- So does one over a directory into which its client writes nothing. -/
theorem Sound.shelved_idle (sound : Sound env names fleet) {client : Client} {disk : List Image}
    (idle : fleet.net.flushing client = none) (mounts : Mounts (fleet.net.dir client) disk)
    : Shelved env disk := by
  refine sound.shelved mounts fun name bytes there => ?_
  refine (sound.sourced.known client name bytes there).resolve_right fun writes => ?_
  exact nomatch idle.symm.trans writes

/-- The caches stay as they are known to be when one of them changes. -/
theorem Sound.filed_update (sound : Sound env names fleet) {client : Client} {cache : BlockCache}
    (filed : BlockCache.Filed env names cache) (other : Client)
    : BlockCache.Filed env names (Function.update fleet.cache client cache other) := by
  by_cases same : other = client
  · subst same
    rwa [Function.update_self]
  · rw [Function.update_of_ne same]
    exact sound.filed other

/-- A call that writes no file keeps it. -/
theorem Sound.update (sound : Sound env names fleet) {client : Client} {cache : BlockCache}
    (filed : BlockCache.Filed env names cache)
    : Sound env names (fleet.update client cache) where
  sourced := sound.sourced
  trees := sound.trees
  filed := sound.filed_update filed
  recorded := sound.recorded

/-- A flush adds its file to the log. -/
theorem Sound.flush (sound : Sound env names fleet) (valid : ∀ path ∈ names, IsFilePath path)
    {client : Client} {event : Event} {disk : List Image} {cache : BlockCache} {name : Bytes}
    {image : Image} {net : Sync.Network Client} (plain : BlockCache.Plain names event.op)
    (writes : fleet.net.flushing client = some name)
    (mounts : Mounts (Function.update (fleet.net.dir client) name none) disk)
    (taken : Steps env ((fleet.cache client).onDisk disk) event cache)
    (added : cache.disk = disk ++ [image]) (filled : fleet.net.dir client name = some image.file)
    (finished : fleet.net.step (.finish client) = some net)
    : Sound env names { fleet.update client cache with
        net := net
        log := fleet.log ++ [(fleet.cache client).flushEntries] } := by
  have shelved : Shelved env disk := by
    refine sound.shelved mounts fun path bytes there => ?_
    have other : path ≠ name := by
      rintro rfl
      cases (Function.update_self ..).symm.trans there
    rw [Function.update_of_ne other] at there
    refine (sound.sourced.known client path bytes there).resolve_right fun written => ?_
    exact other (Option.some.inj (written.symm.trans writes))
  have filed := (sound.filed client).onDisk shelved
  have effect := BlockCache.step_effect taken
  obtain ⟨file, rfl, records⟩ := filed.added valid effect added
  obtain ⟨files, holds, log⟩ := sound.recorded
  have unfinished := (sound.sourced.consistent.writing client name writes).2.1
  have step : fleet.net.WholeStep (.finish client) net :=
    Sync.Network.step_other (by simp) finished
  have opened := Sync.Network.openFile_eq_some.mpr ⟨writes, filled⟩
  simp only [Sync.Network.step, opened, Option.bind_eq_bind, Option.bind_some, Option.pure_def,
    Option.some.injEq] at finished
  refine ⟨sound.sourced.step step, ?_, sound.filed_update (filed.effect valid plain effect),
    files ++ [(name, file)], ?_, ?_⟩
  · intro other path written
    rw [← finished] at written
    by_cases same : other = client
    · subst same
      cases (Function.update_self ..).symm.trans written
    · exact sound.trees other path ((Function.update_of_ne same ..).symm.trans written)
  · rw [← finished]
    exact holds.add unfinished (sound.trees client name writes) file
  · rw [List.map_append, List.map_singleton, log, records]
    rfl

/-- A step between directories finishes no file. -/
theorem finished_same {net after : Sync.Network Client} {event : Sync.Event Client}
    (unfinished : ∀ client, event ≠ .finish client) (taken : net.step event = some after)
    : after.finished = net.finished := by
  cases event with
  | finish client => exact absurd rfl (unfinished client)
  | create client name =>
      simp only [Sync.Network.step] at taken
      split at taken
      · obtain rfl := Option.some.inj taken
        rfl
      · cases taken
  | grow client size =>
      obtain ⟨⟨name, bytes⟩, -, same⟩ := Option.bind_eq_some_iff.mp taken
      obtain rfl := Option.some.inj same
      rfl
  | fill client bytes =>
      obtain ⟨⟨name, old⟩, -, same⟩ := Option.bind_eq_some_iff.mp taken
      dsimp only at same
      split at same
      · obtain rfl := Option.some.inj same
        rfl
      · cases same
  | upload client =>
      exact (Sync.Network.sync_same rfl taken).2
  | download client =>
      exact (Sync.Network.sync_same rfl taken).2

/-- Only the creation of a file names the file that a client writes. -/
theorem flushing_same {net after : Sync.Network Client} {event : Sync.Event Client}
    (taken : net.step event = some after) {client : Client} {name : Bytes}
    (writes : after.flushing client = some name)
    : net.flushing client = some name ∨ event = .create client name := by
  cases event with
  | create author path =>
      simp only [Sync.Network.step] at taken
      split at taken
      · obtain rfl := Option.some.inj taken
        by_cases same : client = author
        · subst same
          have new : Function.update net.flushing client (some path) client = some name := writes
          rw [Function.update_self] at new
          obtain rfl := Option.some.inj new
          exact Or.inr rfl
        · exact Or.inl ((Function.update_of_ne same ..).symm.trans writes)
      · cases taken
  | grow author size =>
      obtain ⟨⟨path, bytes⟩, -, same⟩ := Option.bind_eq_some_iff.mp taken
      obtain rfl := Option.some.inj same
      exact Or.inl writes
  | fill author bytes =>
      obtain ⟨⟨path, old⟩, -, same⟩ := Option.bind_eq_some_iff.mp taken
      dsimp only at same
      split at same
      · obtain rfl := Option.some.inj same
        exact Or.inl writes
      · cases same
  | finish author =>
      obtain ⟨⟨path, bytes⟩, -, same⟩ := Option.bind_eq_some_iff.mp taken
      obtain rfl := Option.some.inj same
      by_cases same : client = author
      · subst same
        cases (Function.update_self ..).symm.trans writes
      · exact Or.inl ((Function.update_of_ne same ..).symm.trans writes)
  | upload author =>
      rw [(Sync.Network.sync_same rfl taken).1] at writes
      exact Or.inl writes
  | download author =>
      rw [(Sync.Network.sync_same rfl taken).1] at writes
      exact Or.inl writes

/-- Every move keeps it. -/
theorem Sound.moves (sound : Sound env names fleet) (valid : ∀ path ∈ names, IsFilePath path)
    (plain : ∀ client event, act = .call client event → BlockCache.Plain names event.op)
    (apart : Set.InjOn (Util.cryptoHash env) names) (moves : Moves env fleet act next)
    : Sound env names next := by
  cases moves with
  | @call client event disk next idle mounts taken same =>
      have filed := (sound.filed client).onDisk (sound.shelved_idle idle mounts)
      exact sound.update (filed.effect valid (plain _ _ rfl) (BlockCache.step_effect taken))
  | restart idle mounts => exact sound.update (.restart (sound.shelved_idle idle mounts) apart _ _)
  | flush writes mounts taken added filled finished =>
      exact sound.flush valid (plain _ _ rfl) writes mounts taken added filled finished
  | step unfinished tree taken =>
      refine ⟨sound.sourced.step taken, ?_, sound.filed, ?_⟩
      · intro client name writes
        rcases flushing_same taken.2 writes with old | rfl
        · exact sound.trees client name old
        · exact tree client name rfl
      · obtain ⟨files, holds, log⟩ := sound.recorded
        exact ⟨files, finished_same unfinished taken.2 ▸ holds, log⟩

/-- Every run keeps it, by induction on it. -/
theorem Sound.run {acts : List (Act Client)} {order : VisitOrder} {size : Nat}
    (run : Run (Moves env) (Fleet.start order size) acts fleet)
    (plain : ∀ client event, .call client event ∈ acts → BlockCache.Plain names event.op)
    (valid : ∀ path ∈ names, IsFilePath path) (apart : Set.InjOn (Util.cryptoHash env) names)
    : Sound env names fleet := by
  refine run.recorded.state_invariant (.start apart order size) ?_
  rintro state act next sound ⟨member, moves⟩
  refine sound.moves valid (fun client event called => ?_) apart moves
  exact plain client event (called ▸ member)

-----------------------------------------------------------------------------------------
-- Flushing
-----------------------------------------------------------------------------------------

/-- The directories while a client's new file holds some bytes. -/
def opened (net : Sync.Network Client) (client : Client) (name : Bytes) (bytes : List Cell)
    : Sync.Network Client :=
  { net.withFile client name bytes with
    flushing := Function.update net.flushing client (some name)
    author := Function.update net.author name (some client) }

/-- A client that writes nothing can flush into a new file. -/
theorem flush_run {client : Client} {name : Bytes} {event : Event} {disk : List Image}
    {cache : BlockCache} {image : Image} (sourced : fleet.net.Sourced)
    (idle : fleet.net.flushing client = none) (unused : fleet.net.author name = none)
    (tree : BPLUSIndexLoader.isTreeName name = true)
    (mounts : Mounts (fleet.net.dir client) disk)
    (taken : Steps env ((fleet.cache client).onDisk disk) event cache)
    (added : cache.disk = disk ++ [image])
    : ∃ net : Sync.Network Client,
        net.flushing = fleet.net.flushing
        ∧ net.finished = Function.update fleet.net.finished name (some image.file)
        ∧ net.uploaded = fleet.net.uploaded
        ∧ Run (Moves env) fleet
          [.step (.create client name), .step (.grow client image.file.length),
            .step (.fill client image.file), .call client event]
          { fleet.update client cache with
            net := net
            log := fleet.log ++ [(fleet.cache client).flushEntries] } := by
  have absent := (sourced.consistent.unused name unused).2.2 client
  have rewritten (old bytes : List Cell)
      : (opened fleet.net client name old).withFile client name bytes
        = opened fleet.net client name bytes := by
    simp [opened, Sync.Network.withFile]
  have held (bytes : List Cell)
      : (opened fleet.net client name bytes).openFile client = some (name, bytes) :=
    Sync.Network.openFile_eq_some.mpr ⟨Function.update_self .., by simp [opened]⟩
  have step {fleet : Fleet Client} {event : Sync.Event Client} {net : Sync.Network Client}
      (unfinished : ∀ client, event ≠ .finish client) (quiet : ∀ client, event ≠ .upload client)
      (created : ∀ author path, event = .create author path → path = name)
      (taken : fleet.net.step event = some net)
      : Moves env fleet (.step event) { fleet with net := net } :=
    .step unfinished (fun author path same => created author path same ▸ tree)
      (Sync.Network.step_other quiet taken)
  have created : fleet.net.step (.create client name)
      = some (opened fleet.net client name []) := if_pos ⟨idle, unused⟩
  have grown : (opened fleet.net client name []).step (.grow client image.file.length)
      = some (opened fleet.net client name (List.replicate image.file.length (.byte 0))) := by
    rw [Sync.Network.step, held, ← rewritten [] (List.replicate image.file.length (.byte 0))]
    rfl
  have filled : (opened fleet.net client name (List.replicate image.file.length (.byte 0))).step
      (.fill client image.file) = some (opened fleet.net client name image.file) := by
    rw [Sync.Network.step, held,
      ← rewritten (List.replicate image.file.length (.byte 0)) image.file]
    exact if_pos List.length_replicate.symm
  obtain ⟨net, is⟩ : ∃ net : Sync.Network Client, net =
    { opened fleet.net client name image.file with
      flushing := Function.update (opened fleet.net client name image.file).flushing client none
      finished := Function.update fleet.net.finished name (some image.file) } := ⟨_, rfl⟩
  have finished : (opened fleet.net client name image.file).step (.finish client) = some net := by
    rw [Sync.Network.step, held, is]
    rfl
  have same : Function.update ((opened fleet.net client name image.file).dir client) name none
      = fleet.net.dir client := by
    simp [opened, Sync.Network.withFile, ← absent]
  have last : Moves env ⟨fleet.cache, opened fleet.net client name image.file, fleet.log⟩
      (.call client event) _ :=
    .flush (Function.update_self ..) (same ▸ mounts) taken added (by simp [opened]) finished
  refine ⟨net, ?_, ?_, ?_, .snoc (.snoc (.snoc (.snoc .nil
    (step (by simp) (by simp) (by simp) created)) (step (by simp) (by simp) (by simp) grown))
    (step (by simp) (by simp) (by simp) filled)) last⟩
  · simp [is, opened, ← idle]
  · rw [is]
  · rw [is]
    rfl

-----------------------------------------------------------------------------------------
-- Equal listings
-----------------------------------------------------------------------------------------

/-- While no flush starts, a run of the whole system is a run of the scripts between the
directories, and the log stays as it is.
-/
theorem quiet_run {acts : List (Act Client)} (run : Run (Moves env) fleet acts next)
    (idle : ∀ client, fleet.net.flushing client = none)
    (quiet : ∀ event, .step event ∈ acts → event.isSync = true)
    : Run Sync.Network.WholeStep fleet.net (acts.filterMap Act.script) next.net
      ∧ next.log = fleet.log := by
  have whole : (Run Sync.Network.WholeStep fleet.net (acts.filterMap Act.script) next.net
      ∧ next.log = fleet.log) ∧ next.net.flushing = fleet.net.flushing := by
    refine run.recorded.invariant (P := fun acts state =>
      (Run Sync.Network.WholeStep fleet.net (acts.filterMap Act.script) state.net
        ∧ state.log = fleet.log) ∧ state.net.flushing = fleet.net.flushing) ⟨⟨.nil, rfl⟩, rfl⟩ ?_
    rintro acts' state act after - ⟨⟨scripts, log⟩, same⟩ ⟨member, moves⟩
    rw [List.filterMap_append]
    cases moves with
    | call | restart =>
        refine ⟨⟨?_, log⟩, same⟩
        change Run _ _ (acts'.filterMap Act.script ++ []) state.net
        rwa [List.append_nil]
    | @flush client _ _ _ _ _ _ writes =>
        rw [same, idle client] at writes
        cases writes
    | step unfinished tree taken =>
        refine ⟨⟨.snoc scripts taken, log⟩, ?_⟩
        exact (Sync.Network.sync_same (quiet _ member) taken.2).1.trans same
  exact whole.1

/-- In every run of the whole system: once no flush is going on, every client's script has
uploaded, and then every one has downloaded, while calls that flush nothing went on anywhere, every
client lists a path exactly if the newest inode of it that any client ever flushed is not deleted,
provided that equally new ones agree on that.
-/
theorem listed_everywhere {acts sending fetching : List (Act Client)} {order : VisitOrder}
    {size : Nat} {final : Fleet Client} {dir path : Bytes}
    (run : Run (Moves env) (Fleet.start order size) acts fleet)
    (plain : ∀ client event, .call client event ∈ acts → BlockCache.Plain names event.op)
    (valid : ∀ path ∈ names, IsFilePath path) (apart : Set.InjOn (Util.cryptoHash env) names)
    (idle : ∀ client, fleet.net.flushing client = none)
    (continued : Run (Moves env) fleet (sending ++ fetching) final)
    (quiet : ∀ event, .step event ∈ sending ++ fetching → event.isSync = true)
    (sends : ∀ client, .step (.upload client) ∈ sending)
    (fetches : ∀ client, .step (.download client) ∈ fetching)
    (small : ∀ flush ∈ fleet.log, 608 + flush.length * inodeLayout.size < 2 ^ 32)
    (child : IsChild dir path)
    (undisputed
      : Undisputed IndexEntry.mtime IndexEntry.deleted
          (fleet.log.flatten.filter (fun entry => decide (entry.path = path))))
    (client : Client) {disk : List Image} (mounts : Mounts (final.net.dir client) disk)
    (visits : VisitOrder)
    : Listed ((final.cache client).onDisk disk) visits dir path
      ↔ ∃ entry, IsNewest IndexEntry.mtime
            (fleet.log.flatten.filter (fun entry => decide (entry.path = path))) entry
          ∧ entry.deleted = false := by
  have sound := Sound.run run plain valid apart
  obtain ⟨scripts, -⟩ := quiet_run continued idle quiet
  rw [List.filterMap_append] at scripts
  have isSync : ∀ event ∈ sending.filterMap Act.script ++ fetching.filterMap Act.script,
      event.isSync = true := by
    intro event member
    rw [← List.filterMap_append] at member
    obtain ⟨act, inside, made⟩ := List.mem_filterMap.mp member
    cases act with
    | step other =>
        obtain rfl := Option.some.inj made
        exact quiet other inside
    | call | restart => cases made
  obtain ⟨-, dirs⟩ := sound.sourced.settled idle scripts isSync
    (fun client => List.mem_filterMap.mpr ⟨_, sends client, rfl⟩)
    (fun client => List.mem_filterMap.mpr ⟨_, fetches client, rfl⟩)
  rw [dirs client] at mounts
  obtain ⟨files, holds, log⟩ := sound.recorded
  have entries : fleet.log.flatten.filter (fun entry => decide (entry.path = path))
      = entriesOf (files.map Prod.snd) path := by
    rw [log, entriesOf, List.flatMap_map, List.flatMap_def]
  rw [entries] at undisputed ⊢
  refine Mounts.listed_iff mounts holds child (fun entry member => ?_) undisputed visits
  have there := small (entry.2.calls.map AddCall.entry) (log ▸ List.mem_map_of_mem member)
  rwa [List.length_map] at there

/-- A loader over a directory without files gets nothing. -/
theorem mounts_nothing : Mounts (fun _ => none) [] :=
  ⟨[], List.nodup_nil, fun name => by simp, rfl⟩

/-- One of two clients creates `/a` and flushes it, and both list it in the end. -/
theorem listed_everywhere_created
    : ∃ fleet final : Fleet Bool,
        (∃ acts, Run (Moves Util.twoDigests) (start ⟨id, .refl⟩ 0) acts fleet)
        ∧ fleet.log = [BlockCache.withFile.flushEntries]
        ∧ (∃ acts, Run (Moves Util.twoDigests) fleet acts final)
        ∧ ∀ client disk, Mounts (final.net.dir client) disk
          → Listed ((final.cache client).onDisk disk) ⟨id, .refl⟩ [47] [47, 97] := by
  obtain ⟨index, flushed⟩ := BlockCache.flush_withFile
  have made : Run (Moves Util.twoDigests) (start ⟨id, .refl⟩ 0 : Fleet Bool)
      [.call false ⟨.at_ 1, .makeFile [47, 97] 0o100644 true, 0⟩]
      ((start ⟨id, .refl⟩ 0).update false BlockCache.withFile) :=
    .snoc .nil (.call rfl mounts_nothing (show Steps _ _ _ _ from rfl) rfl)
  have taken : Steps Util.twoDigests
      ((((start ⟨id, .refl⟩ 0 : Fleet Bool).update false BlockCache.withFile).cache
        false).onDisk [])
      ⟨.at_ 2, .flushToDisk, 0⟩ (BlockCache.withFile.flushed index) := flushed
  have added : (BlockCache.withFile.flushed index).disk = [] ++ [index.image] := rfl
  obtain ⟨net, flushing, -, uploaded, written⟩ := flush_run .empty rfl rfl
    (show BPLUSIndexLoader.isTreeName [84, 82, 69, 69, 45, 48] = true from rfl) mounts_nothing taken
    added
  obtain ⟨fleet, acts, run, plain, idle, fresh, log⟩
      : ∃ (fleet : Fleet Bool) (acts : List (Act Bool)),
          Run (Moves Util.twoDigests) (start ⟨id, .refl⟩ 0) acts fleet
          ∧ (∀ client event, .call client event ∈ acts → BlockCache.Plain {[47, 97]} event.op)
          ∧ (∀ client, fleet.net.flushing client = none)
          ∧ (∀ client, fleet.net.uploaded client = false)
          ∧ fleet.log = [BlockCache.withFile.flushEntries] := by
    refine ⟨_, _, made.append written, ?_, fun client => congrFun flushing client,
      fun client => congrFun uploaded client, rfl⟩
    intro client event called
    simp only [List.cons_append, List.nil_append, List.mem_cons, Act.call.injEq, reduceCtorEq,
      List.not_mem_nil, false_or, or_false] at called
    rcases called with ⟨-, rfl⟩ | ⟨-, rfl⟩ <;>
    · constructor <;> simp [Op.paths]
  obtain ⟨final, continued⟩ : ∃ final, Run (Moves Util.twoDigests) fleet
      ([.step (.upload true), .step (.upload false)]
        ++ [.step (.download false), .step (.download true)]) final := by
    have send {fleet : Fleet Bool} {client : Bool} (idle : fleet.net.flushing client = none)
        (fresh : fleet.net.uploaded client = false)
        : Moves Util.twoDigests fleet (.step (.upload client)) { fleet with net := { fleet.net with
            server := Sync.rsync (fleet.net.dir client) fleet.net.server
            uploaded := Function.update fleet.net.uploaded client true } } :=
      .step (by simp) (by simp) (Sync.Network.step_upload idle (if_neg (by simp [fresh])))
    have fetch {fleet : Fleet Bool} {client : Bool} (sent : fleet.net.uploaded client = true)
        : Moves Util.twoDigests fleet (.step (.download client))
          { fleet with net := { fleet.net with
            dir := Function.update fleet.net.dir client
              (Sync.rsync fleet.net.server (fleet.net.dir client))
            uploaded := Function.update fleet.net.uploaded client false } } :=
      .step (by simp) (by simp) (Sync.Network.step_other (by simp) (if_pos sent))
    exact ⟨_, .snoc (.snoc (.snoc (.snoc .nil (send (idle true) (fresh true)))
      (send (idle false) (by simp [fresh]))) (fetch (by simp))) (fetch (by simp))⟩
  have entries : fleet.log.flatten = BlockCache.withFile.flushEntries := by simp [log]
  refine ⟨fleet, final, ⟨acts, run⟩, log, ⟨_, continued⟩, fun client disk mounts => ?_⟩
  refine (listed_everywhere run plain ?_ (Set.injOn_singleton _ _) idle continued
    (by simp [Sync.Event.isSync]) ?_ ?_ ?_ BlockCache.isChild_root ?_ client mounts
    ⟨id, .refl⟩).mpr ?_
  · rintro path rfl
    exact BlockCache.isChild_root.valid
  · intro client
    cases client <;> simp
  · intro client
    cases client <;> simp
  · intro flush member
    obtain rfl := List.mem_singleton.mp (log ▸ member)
    have short : BlockCache.withFile.flushEntries.length ≤ 1 := List.length_filterMap_le ..
    exact (Nat.add_le_add_left (Nat.mul_le_mul_right _ short) 608).trans_lt (by decide)
  · rw [entries]
    intro one two first second
    obtain ⟨first, here⟩ := List.mem_filter.mp first.member
    obtain ⟨second, there⟩ := List.mem_filter.mp second.member
    exact congrArg _ (BlockCache.flushEntries_unique first second
      ((of_decide_eq_true here).trans (of_decide_eq_true there).symm))
  · rw [entries]
    obtain ⟨inode, found, -, alive⟩ := BlockCache.find_withFile
    have cached := Std.ExtTreeMap.mem_toList_iff_getElem?_eq_some.mpr
      (Std.ExtTreeMap.getElem?_eq_some_getElem (BlockCache.mem_of_find found))
    have member : ⟨[47, 97], inode.ulMtime, inode.deleted⟩ ∈ BlockCache.withFile.flushEntries :=
      List.mem_filterMap.mpr ⟨_, cached, by rw [found]; rfl⟩
    refine ⟨_, ⟨List.mem_filter.mpr ⟨member, decide_eq_true rfl⟩, fun other inside => ?_⟩, alive⟩
    obtain ⟨inside, here⟩ := List.mem_filter.mp inside
    rw [BlockCache.flushEntries_unique inside member (of_decide_eq_true here)]

end Fleet

end ZippyFS
