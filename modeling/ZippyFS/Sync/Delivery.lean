import ZippyFS.Cache.Remount
import ZippyFS.Sync.Fleet

/-! From one client to another. What a session wrote goes into a tree file, the scripts carry the
file to the directory of another client, and a process that maps that directory reads what the
session would have read.
-/

namespace ZippyFS

open CellMemory Runs Outcomes

variable {env : Env}

-----------------------------------------------------------------------------------------
-- A directory with one tree file
-----------------------------------------------------------------------------------------

/-- A loader gets one image from a directory with one tree file. -/
theorem Mounts.single {directory : Bytes → Option (List Cell)} {disk : List Image} {name : Bytes}
    {bytes : List Cell} (mounts : Mounts directory disk)
    (tree : BPLUSIndexLoader.isTreeName name = true) (there : directory name = some bytes)
    (alone
      : ∀ other copy, BPLUSIndexLoader.isTreeName other = true → directory other = some copy
        → other = name)
    : disk = [Image.ofFile bytes] := by
  obtain ⟨names, distinct, listed, onDisk⟩ := mounts
  have only : names = [name] := by
    refine List.perm_singleton.mp ?_
    refine (List.perm_ext_iff_of_nodup distinct (List.nodup_singleton name)).mpr fun other => ?_
    rw [listed, List.mem_singleton]
    constructor
    · intro ⟨named, copy, here⟩
      exact alone other copy named here
    · intro same
      rw [same]
      exact ⟨tree, bytes, there⟩
  rw [onDisk, only, List.filterMap_cons, there]
  rfl

namespace Sync.Network

variable {Client : Type} [DecidableEq Client] {net next : Network Client} {name : Bytes}
  {final : List Cell} {client other : Client}

/-- When only scripts run and no flush is going on, an upload of a file's author and a later
download leave the file in the other directory, which holds finished files only.
-/
theorem Sourced.arrived {sending rest : List (Event Client)} (sourced : net.Sourced)
    (idle : net.flushing other = none) (done : net.finished name = some final)
    (wrote : net.author name = some client)
    (continued : Run WholeStep net (sending ++ rest) next)
    (scripts : ∀ event ∈ sending ++ rest, event.isSync = true)
    (sends : .upload client ∈ sending) (fetches : .download other ∈ rest)
    : next.dir other name = some final
      ∧ ∀ path bytes, next.dir other path = some bytes → net.finished path = some bytes := by
  obtain ⟨author, named, there⟩ := sourced.held name final done
  obtain rfl : author = client := Option.some.inj (named.symm.trans wrote)
  obtain ⟨flushing, finished⟩ := sync_run_same scripts continued
  obtain ⟨last, -⟩ := sourced.keeps_run continued
  obtain ⟨middle, first, second⟩ := continued.split_append
  obtain ⟨here, kept⟩ := sourced.keeps_run first
  have sent := sourced.uploaded_run first sends done there
  refine ⟨here.downloaded_run second fetches (kept.finished name final done) sent, ?_⟩
  intro path bytes copy
  rcases last.known other path bytes copy with known | writes
  · exact finished ▸ known
  · rw [flushing, idle] at writes
    cases writes

end Sync.Network

-----------------------------------------------------------------------------------------
-- The way of a session
-----------------------------------------------------------------------------------------

namespace BlockCache

open Sync Fleet

variable {cache : BlockCache} {Client : Type} [DecidableEq Client]

/-- What a session of careful calls on an empty directory wrote can be read elsewhere: when its file
is the only tree file that was ever finished, and its client's script uploads and another client's
script downloads after that, a process over the other directory sees every file of the session and
reads what the session would read.
-/
theorem read_elsewhere {first : VisitOrder} {size : Nat} {events : List ZippyFS.Event}
    (run : Run (Careful env) (BlockCache.new [] first size) events cache)
    (onFiles : ∀ event ∈ events, event.op.onFiles = true)
    (apart : Set.InjOn (Util.cryptoHash env) (named events)) (nonempty : cache.inodeIdx ≠ ∅)
    : ∃ saved image,
        cache.flushToShdw env true = .ok (0, saved) ∧ saved.disk = [image]
        ∧ ∀ {net next : Network Client} {start sending rest : List (Sync.Event Client)}
            {name : Bytes} {client other : Client} {disk : List Image},
          Run Network.WholeStep (Network.empty : Network Client) start net
          → net.flushing other = none
          → net.finished name = some image.file → net.author name = some client
          → BPLUSIndexLoader.isTreeName name = true
          → (∀ path, BPLUSIndexLoader.isTreeName path = true → net.finished path ≠ none
            → path = name)
          → Run Network.WholeStep net (sending ++ rest) next
          → (∀ event ∈ sending ++ rest, event.isSync = true)
          → .upload client ∈ sending → .download other ∈ rest
          → Mounts (next.dir other) disk
          → ∀ path inode, path ≠ [] → path ≠ [47] → cache.find path = some inode
            → ∀ visits room now,
              (∃ doc, archives env disk visits now path = .ok (some doc)
                ∧ doc.SameFile env (inode.document cache.heap))
              ∧ ∀ count offset,
                Related (fun left right => left.1 = right.1 ∧ left.2.1 = right.2.1)
                  ((mounted disk visits room).read env now path count offset)
                  (cache.read env now path count offset) := by
  have unsaved := unsaved_run run onFiles apart
  obtain ⟨index, filled, flushed, onDisk⟩ := unsaved.flush_eq nonempty
  refine ⟨cache.flushed index, index.image, flushed, onDisk, ?_⟩
  intro net next start sending rest name client other disk reached idle done wrote tree only
    continued scripts sends fetches mounts path inode given root found visits room now
  obtain ⟨sourced, -⟩ := Network.Sourced.empty.keeps_run reached
  obtain ⟨there, finished⟩ :=
    sourced.arrived idle done wrote continued scripts sends fetches
  have single : disk = [Image.ofFile index.image.file] := by
    refine mounts.single tree there fun path copy named here => only path named ?_
    rw [finished path copy here]
    exact Option.some_ne_none copy
  rw [single, unsaved.remapped nonempty filled, ← onDisk]
  exact unsaved.readBack apart nonempty filled given root found visits room now

/-- The name `TREE-0`. -/
def treeName : Bytes := [84, 82, 69, 69, 45, 48]

/-- One client's new file of some bytes is finished and reaches another client. -/
theorem sent_run (bytes : List Cell)
    : ∃ net next : Network Bool,
        Run Network.WholeStep Network.empty
          [.create false treeName, .grow false bytes.length, .fill false bytes,
            .finish false] net
        ∧ net.flushing true = none
        ∧ net.finished = Function.update (fun _ => none) treeName (some bytes)
        ∧ net.author treeName = some false
        ∧ Run Network.WholeStep net ([.upload true, .upload false] ++ [.download true]) next := by
  have rewritten (old new : List Cell)
      : (opened Network.empty false treeName old).withFile false treeName new
        = opened Network.empty false treeName new := by
    simp [opened, Network.withFile]
  have created : (Network.empty : Network Bool).WholeStep (.create false treeName)
      (opened Network.empty false treeName []) :=
    Network.step_other (by simp) rfl
  have grown : (opened Network.empty false treeName []).WholeStep (.grow false bytes.length)
      (opened Network.empty false treeName (List.replicate bytes.length (.byte 0))) := by
    refine Network.step_other (by simp) ?_
    rw [← rewritten [] (List.replicate bytes.length (.byte 0))]
    rfl
  have filled
      : (opened Network.empty false treeName (List.replicate bytes.length (.byte 0))).WholeStep
        (.fill false bytes) (opened Network.empty false treeName bytes) := by
    refine Network.step_other (by simp) ?_
    rw [← rewritten (List.replicate bytes.length (.byte 0)) bytes]
    exact if_pos (List.length_replicate ..).symm
  have fetch {net : Network Bool} (sent : net.uploaded true = true)
      : net.WholeStep (.download true)
        { net with
          dir := Function.update net.dir true (rsync net.server (net.dir true))
          uploaded := Function.update net.uploaded true false } :=
    Network.step_other (by simp) (if_pos sent)
  exact ⟨_, _, .snoc (.snoc (.snoc (.snoc .nil created) grown) filled)
      (Network.step_other (by simp) rfl), rfl, rfl, rfl,
    .snoc (.snoc (.snoc .nil (Network.step_upload rfl rfl)) (Network.step_upload rfl rfl))
      (fetch rfl)⟩

/-- A file that one client created and wrote is read by another one. -/
theorem read_elsewhere_written
    : ∃ cache saved image, ∃ net next : Network Bool,
        Run (Steps Util.twoDigests) fresh
          [⟨.at_ 1, .makeFile [47, 97] 0o100644 true, 0⟩, ⟨.at_ 2, .write [47, 97] [1] 0, 1⟩] cache
        ∧ cache.flushToShdw Util.twoDigests true = .ok (0, saved) ∧ saved.disk = [image]
        ∧ net.finished treeName = some image.file
        ∧ Run Network.WholeStep net ([.upload true, .upload false] ++ [.download true]) next
        ∧ ∀ disk, Mounts (next.dir true) disk
          → ∀ visits room now count offset,
            Related (fun left right => left.1 = right.1 ∧ left.2.1 = right.2.1)
              ((mounted disk visits room).read Util.twoDigests now [47, 97] count offset)
              (cache.read Util.twoDigests now [47, 97] count offset) := by
  obtain ⟨cache, inode, run, found, apart⟩ := careful_written
  obtain ⟨saved, image, flushed, onDisk, elsewhere⟩ :=
    @read_elsewhere Util.twoDigests cache Bool _ _ _ _ run (by simp [Op.onFiles]) apart
      (ne_empty_of_find found)
  obtain ⟨net, next, reached, idle, done, wrote, continued⟩ := sent_run image.file
  have here : net.finished treeName = some image.file := by
    rw [done, Function.update_self]
  refine ⟨cache, saved, image, net, next, run.weaken fun _ _ _ careful => careful.taken, flushed,
    onDisk, here, continued, fun disk mounts visits room now => ?_⟩
  refine (elsewhere reached idle here wrote rfl ?_ continued (by simp [Event.isSync]) (by simp)
    (List.mem_singleton_self _) mounts [47, 97] inode (by decide) (by decide) found visits room
    now).2
  intro path _ finished
  by_contra different
  rw [done, Function.update_of_ne different] at finished
  exact finished rfl

end BlockCache

end ZippyFS
