import ZippyFS.Cache.Operations
import ZippyFS.Lib.Outcomes

/-! What the cache is for: a store of files by value. There are no ids, no shared blocks and no
tables beside the inodes here, only a document for each path, and what can be fetched from
elsewhere.
-/

namespace ZippyFS

open Runs Outcomes

-----------------------------------------------------------------------------------------
-- Documents
-----------------------------------------------------------------------------------------

/-- A file by value: the attributes of an inode, whose own block table stays empty, and the blocks.
-/
structure Document where
  attributes : Inode
  blocks : Std.ExtTreeMap Nat Block

namespace Document

/-- A new file. -/
def new (env : Env) (now : Clock) (path : Bytes) (mode : UInt32) (dirty : Bool) : Document :=
  let attributes := (Inode.new env now path).setMode now mode
  ⟨if dirty then attributes.setDirty else attributes, ∅⟩

/-- The same contents under another path. -/
def copyOf (env : Env) (now : Clock) (path : Bytes) (doc : Document) : Document :=
  ⟨.copyOf env now path doc.attributes, doc.blocks⟩

def resize (now : Clock) (size : Nat) (doc : Document) : Document :=
  ⟨doc.attributes.setSize now size, doc.blocks⟩

def delete (now : Clock) (doc : Document) : Document := ⟨doc.attributes.deleteInode now, ∅⟩

def remake (doc : Document) : Document := ⟨doc.attributes.setDirty.remakeInode, doc.blocks⟩

/-- One link less; a file without links has no blocks. -/
def decLink (path : Bytes) (doc : Document) : Document :=
  if path ∈ doc.attributes.links then
    ⟨doc.attributes.decLink path, if doc.attributes.nlink - 1 = 0 then ∅ else doc.blocks⟩
  else doc

/-- One block of a write. -/
def writeBlock (now : Clock) (buf : Bytes) (blockIdx currIdx blockSize offsetAmt : Nat)
    (doc : Document)
    : Document :=
  match doc.blocks[blockIdx]? with
  | some block =>
      ⟨doc.attributes.touch now,
        doc.blocks.insert blockIdx (block.insert buf blockSize offsetAmt)⟩
  | none =>
      ⟨doc.attributes.updateMtime now,
        doc.blocks.insert blockIdx (Block.new (buf.drop currIdx) blockSize)⟩

/-- All blocks of a write. -/
def writeLoop (now : Clock) (buf : Bytes) (numBlocks : Nat)
    : Nat → Nat → Nat → Nat → Nat → Document → Except Fault Document
  | 0, _, _, _, _, _ => .error .diverges
  | fuel + 1, blockIdx, currIdx, blockSize, offsetAmt, doc =>
      if blockIdx < numBlocks then
        let currIdx := currIdx + blockSize
        let blockSize := if buf.length < currIdx + SIZE then buf.length - currIdx else SIZE
        writeLoop now buf numBlocks fuel ((blockIdx + 1) % 2 ^ 32) currIdx blockSize 0
          (writeBlock now buf blockIdx currIdx blockSize offsetAmt doc)
      else if currIdx + blockSize = buf.length then .ok doc
      else .error .assertion

/-- A write to a document. -/
def write (now : Clock) (buf : Bytes) (offset : Nat) (doc : Document) : Except Fault Document :=
  let stop := (buf.length + offset) % 2 ^ 64
  writeLoop now buf (Util.ulongCeil stop SIZE) (2 ^ 32 + 1) (offset / SIZE % 2 ^ 32) 0 0
    (if offset < SIZE then offset else offset % SIZE)
    ⟨BlockCache.grown now doc.attributes stop, doc.blocks⟩

/-- The blocks of a read. -/
def readLoop (env : Env) (doc : Document) (size : Nat)
    : Nat → Nat → Nat → Bytes → Except Fault Bytes
  | 0, _, _, _ => .error .diverges
  | fuel + 1, blockIdx, offsetAmt, buf =>
      if blockIdx < doc.blocks.size ∧ buf.length < size then
        match doc.blocks[blockIdx]? with
        | none => .error .nullDeref
        | some block =>
            let blockData := block.copied env block.actualSize
            let buf := buf ++ (blockData.drop offsetAmt).take (size - buf.length)
            readLoop env doc size fuel ((blockIdx + 1) % 2 ^ 32) 0 buf
      else .ok buf

/-- A read of a document. -/
def read (env : Env) (size offset : Nat) (doc : Document) : Except Fault Bytes :=
  readLoop env doc size (2 ^ 32 * (size + 1) + 1) (offset / SIZE % 2 ^ 32)
    (if offset < SIZE then offset else offset % SIZE) []

-----------------------------------------------------------------------------------------
-- Links
-----------------------------------------------------------------------------------------

variable {S : Set Bytes} {path : Bytes} {doc after : Document} {now : Clock}

/-- All links of a document at this path are on the same side of `S` as the path. -/
def Tied (S : Set Bytes) (path : Bytes) (doc : Document) : Prop :=
  ∀ link ∈ doc.attributes.links, link ∈ S ↔ path ∈ S

/-- A document whose links another has. -/
theorem Tied.subset (tied : doc.Tied S path) (fewer : after.attributes.links ⊆ doc.attributes.links)
    : after.Tied S path :=
  fun link listed => tied link (fewer listed)

/-- The document at another path on the same side. -/
theorem Tied.moved (tied : doc.Tied S path) {other : Bytes} (same : path ∈ S ↔ other ∈ S)
    : doc.Tied S other :=
  fun link listed => (tied link listed).trans same

/-- A document that has no link but its own path. -/
theorem tied_of_own (own : doc.attributes.links ⊆ {path}) : doc.Tied S path := by
  intro link listed
  rw [Finset.mem_singleton.mp (own listed)]

theorem links_new (env : Env) (path : Bytes) (mode : UInt32) (dirty : Bool)
    : (new env now path mode dirty).attributes.links = {path} := by
  cases dirty <;> rfl

theorem links_decLink (path : Bytes) (doc : Document)
    : (doc.decLink path).attributes.links ⊆ doc.attributes.links := by
  unfold decLink
  split
  · exact Finset.erase_subset ..
  · exact subset_rfl

theorem links_writeBlock (buf : Bytes) (blockIdx currIdx blockSize offsetAmt : Nat)
    : (doc.writeBlock now buf blockIdx currIdx blockSize offsetAmt).attributes.links
      = doc.attributes.links := by
  unfold writeBlock
  split <;> rfl

/-- A write leaves the links alone, by induction on the fuel of its loop. -/
theorem links_writeLoop {buf : Bytes}
    {numBlocks fuel blockIdx currIdx blockSize offsetAmt : Nat}
    : Returns (fun after => after.attributes.links = doc.attributes.links)
        (doc.writeLoop now buf numBlocks fuel blockIdx currIdx blockSize offsetAmt) := by
  induction fuel generalizing doc blockIdx currIdx blockSize offsetAmt with
  | zero => exact .error _
  | succ fuel ih =>
      rw [writeLoop]
      refine .ite (fun _ => ?_) fun _ => .ite (fun _ => .ok rfl) fun _ => .error _
      exact fun after written => (ih after written).trans (links_writeBlock ..)

theorem links_write (buf : Bytes) (offset : Nat)
    : Returns (fun after => after.attributes.links = doc.attributes.links)
        (doc.write now buf offset) := by
  intro after written
  rw [links_writeLoop after written]
  unfold BlockCache.grown
  split <;> rfl

end Document

-----------------------------------------------------------------------------------------
-- Stores
-----------------------------------------------------------------------------------------

/-- The documents of all paths. -/
abbrev Store := Bytes → Option Document

/-- What can be fetched from elsewhere, now. -/
abbrev Archive := Bytes → Except Fault (Option Document)

/-- What is fetched has no link but its own path. -/
def Archive.Own (fetch : Archive) : Prop :=
  ∀ path doc, fetch path = .ok (some doc) → doc.attributes.links ⊆ {path}

namespace Store

variable {env : Env} {now : Clock} {fetch : Archive} {store : Store}

/-- The root always counts as known. -/
def known (store : Store) (path : Bytes) : Bool := (store path).isSome ∨ path = [47]

def get (store : Store) (path : Bytes) : Except Fault Document :=
  match store path with
  | none => .error .nullInode
  | some doc => .ok doc

def put (store : Store) (path : Bytes) (doc : Document) : Store :=
  Function.update store path (some doc)

/-- Fetch a path that is not known. -/
def load (fetch : Archive) (store : Store) (path : Bytes) : Except Fault (Int × Store) := do
  match ← fetch path with
  | none => .ok (-1, store)
  | some doc => .ok (0, store.put path doc)

def ensure (fetch : Archive) (store : Store) (path : Bytes) : Except Fault (Int × Store) :=
  if store.known path then .ok (0, store) else store.load fetch path

def makeFile (env : Env) (now : Clock) (store : Store) (path : Bytes) (mode : UInt32)
    (dirty : Bool)
    : Store :=
  store.put path (.new env now path mode dirty)

/-- A removal takes the path off all links. -/
def remove (now : Clock) (store : Store) (path : Bytes) : Except Fault (Int × Store) :=
  if store.known path then do
    let store : Store := fun other => (store other).map (·.decLink path)
    let doc ← store.get path
    .ok (0, store.put path (doc.delete now))
  else .ok (-1, store)

def rmdir (now : Clock) (store : Store) (path : Bytes) : Except Fault (Int × Store) :=
  if store.known path then do
    let doc ← store.get path
    .ok (0, store.put path (doc.delete now))
  else .ok (-1, store)

def truncate (now : Clock) (store : Store) (path : Bytes) (size : Nat)
    : Except Fault (Int × Store) :=
  if store.known path then do
    let doc ← store.get path
    .ok (0, store.put path (doc.resize now size))
  else .ok (-1, store)

def rename (env : Env) (now : Clock) (fetch : Archive) (store : Store) (from_ to_ : Bytes)
    : Except Fault (Int × Store) := do
  let (res, store) ← store.ensure fetch from_
  if res = -1 then .ok (-1, store)
  else
    let (res, store) ← store.ensure fetch to_
    let old ← store.get from_
    let store := if res = -1 then store.makeFile env now to_ old.attributes.mode true else store
    let source ← store.get from_
    .ok (0, (store.put from_ (source.delete now)).put to_ (source.copyOf env now to_))

def ready (fetch : Archive) (store : Store) (path : Bytes) : Except Fault (Int × Store) :=
  if store.known path then do
    let doc ← store.get path
    .ok (0, store.put path doc.remake)
  else store.load fetch path

def write (now : Clock) (fetch : Archive) (store : Store) (path buf : Bytes) (offset : Nat)
    : Except Fault (Int × Store) := do
  let (found, store) ← store.ready fetch path
  if found = -1 then .ok (-1, store)
  else
    let doc ← store.get path
    let doc ← doc.write now buf offset
    .ok (buf.length, store.put path doc)

def read (env : Env) (fetch : Archive) (store : Store) (path : Bytes) (size offset : Nat)
    : Except Fault (Int × Bytes × Store) := do
  let (_, store) ← store.ensure fetch path
  let doc ← store.get path
  let bytes ← doc.read env size offset
  .ok (Util.toInt size, bytes, store)

/-- Carry out a call on files. -/
def step (env : Env) (now : Clock) (fetch : Archive) (store : Store)
    : Op → Except Fault (Int × Store)
  | .makeFile path mode dirty => .ok (0, store.makeFile env now path mode dirty)
  | .write path buf offset => store.write now fetch path buf offset
  | .truncate path size => store.truncate now path size
  | .remove path => store.remove now path
  | .rmdir path => store.rmdir now path
  | .rename from_ to_ => store.rename env now fetch from_ to_
  | .open_ path => do
      let (_, store) ← store.ensure fetch path
      .ok (0, store)
  | .read path size offset => do
      let (result, _, store) ← store.read env fetch path size offset
      .ok (result, store)
  | _ => .ok (0, store)

-----------------------------------------------------------------------------------------
-- Calls on some of the paths
-----------------------------------------------------------------------------------------

variable {S : Set Bytes} {left right middle next : Store} {path from_ to_ : Bytes} {doc : Document}

/-- Two stores agree on some of the paths. -/
def Agree (S : Set Bytes) (left right : Store) : Prop := ∀ path ∈ S, left path = right path

theorem Agree.refl (S : Set Bytes) (store : Store) : Agree S store store := fun _ _ => rfl

theorem Agree.trans (first : Agree S left middle) (second : Agree S middle right)
    : Agree S left right :=
  fun path inside => (first path inside).trans (second path inside)

theorem Agree.put (agree : Agree S left right) (path : Bytes) (doc : Document)
    : Agree S (left.put path doc) (right.put path doc) := by
  intro other inside
  rw [Store.put, Store.put, Function.update_apply, Function.update_apply, agree other inside]

theorem Agree.known (agree : Agree S left right) (inside : path ∈ S)
    : left.known path = right.known path := by
  rw [Store.known, Store.known, agree path inside]

theorem Agree.get (agree : Agree S left right) (inside : path ∈ S)
    : Related (fun one two => one = two) (left.get path) (right.get path) := by
  rw [Store.get, Store.get, agree path inside]
  exact .of_eq fun _ => rfl

/-- The same result, and stores that agree. -/
abbrev AgreeAfter (S : Set Bytes) (one two : Int × Store) : Prop :=
  one.1 = two.1 ∧ Agree S one.2 two.2

theorem Agree.load (agree : Agree S left right) (fetch : Archive) (path : Bytes)
    : Related (AgreeAfter S) (left.load fetch path) (right.load fetch path) := by
  rw [Store.load, Store.load]
  refine (Related.of_eq fun _ => rfl).bind (R := Eq) ?_
  rintro found - rfl
  cases found with
  | none => exact .ok ⟨rfl, agree⟩
  | some doc => exact .ok ⟨rfl, agree.put path doc⟩

theorem Agree.ensure (agree : Agree S left right) (fetch : Archive) (inside : path ∈ S)
    : Related (AgreeAfter S) (left.ensure fetch path) (right.ensure fetch path) := by
  rw [Store.ensure, Store.ensure, agree.known inside]
  exact .ite (fun _ => .ok ⟨rfl, agree⟩) fun _ => agree.load fetch path

theorem Agree.ready (agree : Agree S left right) (fetch : Archive) (inside : path ∈ S)
    : Related (AgreeAfter S) (left.ready fetch path) (right.ready fetch path) := by
  rw [Store.ready, Store.ready, agree.known inside]
  refine .ite (fun _ => (agree.get inside).bind ?_) fun _ => agree.load fetch path
  rintro doc - rfl
  exact .ok ⟨rfl, agree.put path _⟩

theorem Agree.read (agree : Agree S left right) (fetch : Archive) (inside : path ∈ S)
    (size offset : Nat)
    : Related (fun one two => one.1 = two.1 ∧ one.2.1 = two.2.1 ∧ Agree S one.2.2 two.2.2)
        (left.read env fetch path size offset) (right.read env fetch path size offset) := by
  rw [Store.read, Store.read]
  refine (agree.ensure fetch inside).bind ?_
  rintro ⟨res, one⟩ ⟨res', two⟩ ⟨rfl, same⟩
  refine (same.get inside).bind ?_
  rintro doc - rfl
  refine (Related.of_eq fun _ => rfl).bind (R := Eq) ?_
  rintro bytes - rfl
  exact .ok ⟨rfl, rfl, same⟩

/-- A call whose paths are among those two stores agree on has the same effect on both. -/
theorem Agree.step (agree : Agree S left right) {op : Op} (inside : ∀ path ∈ op.paths, path ∈ S)
    : Related (AgreeAfter S) (left.step env now fetch op) (right.step env now fetch op) := by
  cases op with
  | makeFile path mode dirty => exact .ok ⟨rfl, agree.put path _⟩
  | write path buf offset =>
      have inside := inside path (List.mem_cons_self ..)
      refine (agree.ready fetch inside).bind ?_
      rintro ⟨found, one⟩ ⟨found', two⟩ ⟨rfl, same⟩
      refine .ite (fun _ => .ok ⟨rfl, same⟩) fun _ => (same.get inside).bind ?_
      rintro doc - rfl
      refine (Related.of_eq fun _ => rfl).bind (R := Eq) ?_
      rintro doc - rfl
      exact .ok ⟨rfl, same.put path doc⟩
  | truncate path size =>
      have inside := inside path (List.mem_cons_self ..)
      rw [Store.step, Store.step, Store.truncate, Store.truncate, agree.known inside]
      refine .ite (fun _ => (agree.get inside).bind ?_) fun _ => .ok ⟨rfl, agree⟩
      rintro doc - rfl
      exact .ok ⟨rfl, agree.put path _⟩
  | remove path =>
      have inside := inside path (List.mem_cons_self ..)
      have lowered : Agree S (fun other => (left other).map (·.decLink path))
          (fun other => (right other).map (·.decLink path)) :=
        fun other member => congrArg _ (agree other member)
      rw [Store.step, Store.step, Store.remove, Store.remove, agree.known inside]
      refine .ite (fun _ => (lowered.get inside).bind ?_) fun _ => .ok ⟨rfl, agree⟩
      rintro doc - rfl
      exact .ok ⟨rfl, lowered.put path _⟩
  | rmdir path =>
      have inside := inside path (List.mem_cons_self ..)
      rw [Store.step, Store.step, Store.rmdir, Store.rmdir, agree.known inside]
      refine .ite (fun _ => (agree.get inside).bind ?_) fun _ => .ok ⟨rfl, agree⟩
      rintro doc - rfl
      exact .ok ⟨rfl, agree.put path _⟩
  | rename from_ to_ =>
      have source := inside from_ (List.mem_cons_self ..)
      have target := inside to_ (List.mem_cons_of_mem _ (List.mem_cons_self ..))
      refine (agree.ensure fetch source).bind ?_
      rintro ⟨res, one⟩ ⟨res', two⟩ ⟨rfl, same⟩
      refine .ite (fun _ => .ok ⟨rfl, same⟩) fun _ => (same.ensure fetch target).bind ?_
      rintro ⟨res, one⟩ ⟨res', two⟩ ⟨rfl, same⟩
      refine (same.get source).bind ?_
      rintro old - rfl
      have made : Agree S
          (if res = -1 then one.makeFile env now to_ old.attributes.mode true else one)
          (if res = -1 then two.makeFile env now to_ old.attributes.mode true else two) := by
        split
        · exact same.put to_ _
        · exact same
      refine (made.get source).bind ?_
      rintro source - rfl
      exact .ok ⟨rfl, (made.put from_ _).put to_ _⟩
  | open_ path =>
      refine (agree.ensure fetch (inside path (List.mem_cons_self ..))).bind ?_
      rintro ⟨res, one⟩ ⟨res', two⟩ ⟨-, same⟩
      exact .ok ⟨rfl, same⟩
  | read path size offset =>
      refine (agree.read fetch (inside path (List.mem_cons_self ..)) size offset).bind ?_
      rintro ⟨res, bytes, one⟩ ⟨res', bytes', two⟩ ⟨rfl, rfl, same⟩
      exact .ok ⟨rfl, same⟩
  | _ => exact .ok ⟨rfl, agree⟩

-----------------------------------------------------------------------------------------
-- Calls on the other paths
-----------------------------------------------------------------------------------------

/-- No document has a link from the other side of `S`. -/
def Separated (S : Set Bytes) (store : Store) : Prop :=
  ∀ path doc, store path = some doc → doc.Tied S path

/-- A store after calls on paths in `S` only. -/
structure Kept (S : Set Bytes) (store next : Store) : Prop where
  separated : Separated S next
  outside : Agree Sᶜ store next

theorem Kept.refl (separated : Separated S store) : Kept S store store := ⟨separated, .refl _ _⟩

theorem Kept.put (kept : Kept S store middle) (inside : path ∈ S) (tied : doc.Tied S path)
    : Kept S store (middle.put path doc) where
  separated := by
    intro other found there
    by_cases same : other = path
    · rw [same, Store.put, Function.update_self] at there
      rwa [← Option.some.inj there, same]
    · rw [Store.put, Function.update_of_ne same] at there
      exact kept.separated other found there
  outside := by
    intro other away
    have different : other ≠ path := fun same => away (same ▸ inside)
    rw [kept.outside other away, Store.put, Function.update_of_ne different]

theorem Kept.get (kept : Kept S store middle) (path : Bytes)
    : Returns (fun doc => doc.Tied S path) (middle.get path) := by
  rw [Store.get]
  cases found : middle path with
  | none => exact .error _
  | some doc => exact .ok (kept.separated path doc found)

theorem Kept.load (kept : Kept S store middle) (own : Archive.Own fetch) (inside : path ∈ S)
    : Returns (fun out => Kept S store out.2) (middle.load fetch path) := by
  rw [Store.load]
  cases found : fetch path with
  | error fault => exact .error fault
  | ok fetched =>
      cases fetched with
      | none => exact .ok kept
      | some doc => exact .ok (kept.put inside (Document.tied_of_own (own path doc found)))

theorem Kept.ensure (kept : Kept S store middle) (own : Archive.Own fetch) (inside : path ∈ S)
    : Returns (fun out => Kept S store out.2) (middle.ensure fetch path) :=
  .ite (fun _ => .ok kept) fun _ => kept.load own inside

theorem Kept.ready (kept : Kept S store middle) (own : Archive.Own fetch) (inside : path ∈ S)
    : Returns (fun out => Kept S store out.2) (middle.ready fetch path) :=
  .ite (fun _ => (kept.get path).bind fun _ tied => .ok (kept.put inside tied))
    fun _ => kept.load own inside

/-- The documents outside have no link to take off. -/
theorem Kept.decLinks (kept : Kept S store middle) (inside : path ∈ S)
    : Kept S store (fun other => (middle other).map (·.decLink path)) where
  separated := by
    intro other lowered there
    obtain ⟨doc, found, rfl⟩ := Option.map_eq_some_iff.mp there
    exact (kept.separated other doc found).subset (Document.links_decLink path doc)
  outside := by
    intro other away
    rw [kept.outside other away]
    refine Option.map_id'.symm.trans (Option.map_congr fun doc found => ?_)
    have unlisted : path ∉ doc.attributes.links :=
      fun listed => away ((kept.separated other doc found path listed).mp inside)
    rw [Document.decLink, if_neg unlisted]

/-- A call whose paths are in `S` leaves the documents outside alone. -/
theorem Separated.step (separated : Separated S store) (own : Archive.Own fetch) {op : Op}
    (inside : ∀ path ∈ op.paths, path ∈ S)
    : Returns (fun out => Kept S store out.2) (store.step env now fetch op) := by
  have kept := Kept.refl separated
  have bare {path : Bytes} (doc : Document) : (doc.delete now).Tied S path :=
    fun link listed => by simp [Document.delete, Inode.deleteInode] at listed
  cases op with
  | makeFile path mode dirty =>
      exact .ok (kept.put (inside path (List.mem_cons_self ..))
        (Document.tied_of_own (Document.links_new env path mode dirty).subset))
  | write path buf offset =>
      have inside := inside path (List.mem_cons_self ..)
      refine (kept.ready own inside).bind fun out ready => .ite (fun _ => .ok ready) fun _ => ?_
      refine (ready.get path).bind fun doc tied => (Document.links_write buf offset).bind ?_
      exact fun after same => .ok (ready.put inside (tied.subset same.subset))
  | truncate path size =>
      have inside := inside path (List.mem_cons_self ..)
      exact .ite (fun _ => (kept.get path).bind fun doc tied => .ok (kept.put inside tied))
        fun _ => .ok kept
  | remove path =>
      have inside := inside path (List.mem_cons_self ..)
      have lowered := kept.decLinks inside
      exact .ite (fun _ => (lowered.get path).bind fun doc _ =>
        .ok (lowered.put inside (bare doc))) fun _ => .ok kept
  | rmdir path =>
      have inside := inside path (List.mem_cons_self ..)
      exact .ite (fun _ => (kept.get path).bind fun doc _ => .ok (kept.put inside (bare doc)))
        fun _ => .ok kept
  | rename from_ to_ =>
      have source := inside from_ (List.mem_cons_self ..)
      have target := inside to_ (List.mem_cons_of_mem _ (List.mem_cons_self ..))
      refine (kept.ensure own source).bind fun out one => .ite (fun _ => .ok one) fun _ => ?_
      refine (one.ensure own target).bind fun out two => (two.get from_).bind fun old _ => ?_
      have made : Kept S store
          (if out.1 = -1 then out.2.makeFile env now to_ old.attributes.mode true else out.2) := by
        split
        · exact two.put target (Document.tied_of_own (Document.links_new ..).subset)
        · exact two
      refine (made.get from_).bind fun doc tied => .ok ((made.put source (bare doc)).put target ?_)
      exact (tied.subset subset_rfl).moved (iff_of_true source target)
  | open_ path =>
      exact (kept.ensure own (inside path (List.mem_cons_self ..))).bind fun out one => .ok one
  | read path size offset =>
      have inside := inside path (List.mem_cons_self ..)
      have found : Returns (fun out => Kept S store out.2.2)
          (store.read env fetch path size offset) :=
        (kept.ensure own inside).bind fun out one => (one.get path).bind fun doc _ =>
          Returns.bind (P := fun _ => True) (fun _ _ => trivial) fun bytes _ => .ok one
      exact found.bind fun out one => .ok one
  | _ => exact .ok kept

-----------------------------------------------------------------------------------------
-- Runs
-----------------------------------------------------------------------------------------

variable {fetches : Clock → Archive} {start : Store} {events : List Event} {event : Event}

/-- A call that returned. -/
def Steps (env : Env) (fetches : Clock → Archive) (store : Store) (event : Event) (next : Store)
    : Prop :=
  store.step env event.now (fetches event.now) event.op = .ok (event.result, next)

theorem Separated.compl (separated : Separated S store) : Separated Sᶜ store :=
  fun path doc found link listed => not_congr (separated path doc found link listed)

theorem Separated.kept (separated : Separated S store) (own : ∀ now, Archive.Own (fetches now))
    (inside : ∀ path ∈ event.op.paths, path ∈ S) (taken : Steps env fetches store event next)
    : Kept S store next :=
  separated.step (own event.now) inside _ taken

/-- A call on the other side. -/
theorem Separated.untouched (separated : Separated S store)
    (own : ∀ now, Archive.Own (fetches now)) (away : ∀ path ∈ event.op.paths, path ∈ Sᶜ)
    (taken : Steps env fetches store event next)
    : Separated S next ∧ Agree S store next := by
  have kept := separated.compl.kept own away taken
  have separated := kept.separated.compl
  have outside := kept.outside
  rw [compl_compl] at separated outside
  exact ⟨separated, outside⟩

/-- Stores that agree on the paths of a call both take it. -/
theorem Agree.follow (agree : Agree S left right) (inside : ∀ path ∈ event.op.paths, path ∈ S)
    (taken : Steps env fetches left event next)
    : ∃ after, Steps env fetches right event after ∧ Agree S next after := by
  have related : Related (AgreeAfter S) _
      (right.step env event.now (fetches event.now) event.op) :=
    agree.step inside
  rw [Steps] at taken
  rw [taken] at related
  obtain ⟨⟨result, after⟩, returned, rfl, still⟩ := related.of_ok
  exact ⟨after, returned, still⟩

/-- What one side does in a run it can do without the other side. -/
theorem side_alone (keep : Event → Bool)
    (run : Run (Steps env fetches) start events store)
    (own : ∀ now, Archive.Own (fetches now)) (separated : Separated S start)
    (inside : ∀ event ∈ events, keep event = true → ∀ path ∈ event.op.paths, path ∈ S)
    (away : ∀ event ∈ events, keep event = false → ∀ path ∈ event.op.paths, path ∈ Sᶜ)
    : ∃ left, Run (Steps env fetches) start (events.filter keep) left ∧ Agree S store left := by
  obtain ⟨left, alone, -, agree⟩ := run.projected
    (R := fun store left => Separated S store ∧ Agree S store left) ⟨separated, .refl _ _⟩
    (fun state event next left member kept related taken => by
      obtain ⟨after, follows, still⟩ := related.2.follow (inside event member kept) taken
      exact ⟨after, follows, (related.1.kept own (inside event member kept) taken).separated,
        still⟩)
    (fun state event next left member dropped related taken => by
      obtain ⟨separated, same⟩ := related.1.untouched own (away event member dropped) taken
      exact ⟨separated, fun path inside => (same path inside).symm.trans (related.2 path inside)⟩)
  exact ⟨left, alone, agree⟩

/-- Two sides can do together what each can do alone. -/
theorem sides_together {keep : Event → Bool}
    (runLeft : Run (Steps env fetches) start (events.filter keep) left)
    (runRight : Run (Steps env fetches) start (events.filter (fun event => !keep event)) right)
    (own : ∀ now, Archive.Own (fetches now)) (separated : Separated S start)
    (inside : ∀ event ∈ events, keep event = true → ∀ path ∈ event.op.paths, path ∈ S)
    (away : ∀ event ∈ events, keep event = false → ∀ path ∈ event.op.paths, path ∈ Sᶜ)
    : ∃ store, Run (Steps env fetches) start events store ∧ Agree S left store
        ∧ Agree Sᶜ right store := by
  obtain ⟨store, run, -, agree, agree'⟩ := runLeft.merged
    (R := fun left right store => Separated S store ∧ Agree S left store ∧ Agree Sᶜ right store)
    runRight ⟨separated, .refl _ _, .refl _ _⟩
    (fun left right state event next member kept related taken => by
      obtain ⟨separated, one, two⟩ := related
      obtain ⟨after, follows, still⟩ := one.follow (inside event member kept) taken
      have left := separated.kept own (inside event member kept) follows
      exact ⟨after, follows, left.separated, still, two.trans left.outside⟩)
    (fun left right state event next member dropped related taken => by
      obtain ⟨separated, one, two⟩ := related
      obtain ⟨after, follows, still⟩ := two.follow (away event member dropped) taken
      obtain ⟨separated, same⟩ := separated.untouched own (away event member dropped) follows
      exact ⟨after, follows, separated, one.trans same, still⟩)
  exact ⟨store, run, agree, agree'⟩

end Store

end ZippyFS
