import MiniGarnet.Lib.LittleEndian
import MiniGarnet.Lib.Lts
import MiniGarnet.Tsavorite.Checkpoint

/-! # The metadata file

    `write_to` writes the six words of a checkpoint to a temporary file,
    syncs it, and renames it over the old one.  A call may fail and the
    power may fail, at any point; what has not been synced may then hold
    anything, and renames that have not reached the disk are undone.  Still
    the file is always one that was written as a whole.
-/

namespace Tsavorite

/-! ## Section 1: The format -/

/-- "TSAVORIT" -/
def META_MAGIC : ℕ := 0x545341564f524954

namespace CheckpointInfo

/-- The words of the file. -/
def words (info : CheckpointInfo) : List ℕ :=
  [META_MAGIC, info.version, info.beginAddress, info.startAddress, info.finalAddress,
    info.userData]

/-- The fields are `u64`s. -/
structure Fits (info : CheckpointInfo) : Prop where
  version : info.version < 2 ^ 64
  beginAddress : info.beginAddress < 2 ^ 64
  startAddress : info.startAddress < 2 ^ 64
  finalAddress : info.finalAddress < 2 ^ 64
  userData : info.userData < 2 ^ 64

/-- The first `n` words, as `write_all` puts them. -/
def bytes (info : CheckpointInfo) (n : ℕ) : List UInt8 :=
  (info.words.take n).flatMap (LittleEndian.toBytes 8)

end CheckpointInfo

section Format

variable {info : CheckpointInfo}

end Format

/-! ## Section 2: Writing the file -/

/-- A file as the system has it; what has not been synced may be lost. -/
structure MetaFile where
  contents : List UInt8
  synced : Bool

/-- Where `write_to` stands. -/
inductive WritePc where
  | idle
  /-- `n` words of the temporary file have been written. -/
  | writing (info : CheckpointInfo) (n : ℕ)
  /-- `sync_all` has returned. -/
  | synced (info : CheckpointInfo)
  deriving DecidableEq, Repr

/-- The directory of the checkpoint.  `path` is what the metadata path leads to, first as the
    system sees it and then as it was before each rename since the last power failure. -/
structure MetaDisk where
  path : Option MetaFile
  earlier : List (Option MetaFile)
  tmp : Option MetaFile
  pc : WritePc

inductive WriteLabel where
  /-- `File::create(&tmp)` -/
  | create (info : CheckpointInfo)
  /-- `write_all` of the next word. -/
  | word
  /-- `sync_all` -/
  | sync
  /-- `rename(tmp, path)`, and `write_to` returns. -/
  | rename
  /-- A call fails and `write_to` returns its error; `part` is what a failed `write_all` has
      added to the file. -/
  | fail (part : List UInt8)
  /-- The process ends. -/
  | killed
  /-- The power fails: the last `n` renames are undone, and a file that has not been synced
      holds `lost`. -/
  | powerFailure (n : ℕ) (lost : List UInt8)

namespace MetaDisk

/-- A directory without a checkpoint; `tmp` may be left over. -/
def empty (tmp : Option MetaFile) : MetaDisk := ⟨none, [], tmp, .idle⟩

/-- What is left of a file without power. -/
def survivor (lost : List UInt8) (file : MetaFile) : MetaFile :=
  if file.synced then file else ⟨lost, true⟩

def next (d : MetaDisk) : WriteLabel → Option MetaDisk
  | .create info =>
    match d.pc with
    | .idle => some { d with tmp := some ⟨[], false⟩, pc := .writing info 0 }
    | _ => none
  | .word =>
    match d.pc, d.tmp with
    | .writing info n, some file =>
      info.words[n]?.map fun w => { d with
        tmp := some ⟨file.contents ++ LittleEndian.toBytes 8 w, false⟩
        pc := .writing info (n + 1) }
    | _, _ => none
  | .sync =>
    match d.pc, d.tmp with
    | .writing info n, some file =>
      if n = 6 then some { d with tmp := some { file with synced := true }, pc := .synced info }
      else none
    | _, _ => none
  | .rename =>
    match d.pc with
    | .synced _ => some ⟨d.tmp, d.path :: d.earlier, none, .idle⟩
    | _ => none
  | .fail part =>
    match d.pc with
    | .idle => none
    | .writing _ _ => some { d with
        tmp := d.tmp.map fun file => ⟨file.contents ++ part, false⟩
        pc := .idle }
    | .synced _ => some { d with pc := .idle }
  | .killed => some { d with pc := .idle }
  | .powerFailure n lost =>
    ((d.path :: d.earlier)[n]?).map fun path =>
      ⟨path.map (survivor lost), [], d.tmp.map (survivor lost), .idle⟩

end MetaDisk

/-! ## Section 3: The file is written as a whole -/

/-- What `write_to` is for: one of the checkpoints whose calls have gone through, the last of
    them unless a power failure has undone renames.  `none` is the directory at the start. -/
structure Published where
  writing : Option CheckpointInfo
  stack : List (Option CheckpointInfo)

namespace Published

def empty : Published := ⟨none, [none]⟩

def next (p : Published) : WriteLabel → Published
  | .create info => { p with writing := some info }
  | .rename => ⟨none, p.writing :: p.stack⟩
  | .powerFailure n _ => ⟨none, p.stack[n]?.toList⟩
  | .word | .sync | .fail _ | .killed => p

end Published

/-- The fields handed to `write_to` are `u64`s. -/
def WriteLabel.Fits : WriteLabel → Prop
  | .create info => info.Fits
  | _ => True

section Atomic

/-- A file that has been written as a whole. -/
def MetaFile.whole (info : CheckpointInfo) : MetaFile := ⟨info.bytes 6, true⟩

/-- Where the temporary file stands. -/
def TmpAt (tmp : Option MetaFile) (writing : Option CheckpointInfo) : WritePc → Prop
  | .idle => True
  | .writing info n => writing = some info ∧ info.Fits ∧ tmp = some ⟨info.bytes n, false⟩
  | .synced info => writing = some info ∧ info.Fits ∧ tmp = some (.whole info)

/-- Every file the metadata path may lead to has been written as a whole. -/
structure MetaInv (d : MetaDisk) (p : Published) : Prop where
  paths : d.path :: d.earlier = p.stack.map (Option.map MetaFile.whole)
  fits : ∀ info, some info ∈ p.stack → info.Fits
  tmp : TmpAt d.tmp p.writing d.pc

variable {d d' : MetaDisk} {p : Published}

theorem bytes_succ {info : CheckpointInfo} {n w : ℕ} (hw : info.words[n]? = some w) :
    info.bytes n ++ LittleEndian.toBytes 8 w = info.bytes (n + 1) := by
  unfold CheckpointInfo.bytes
  rw [List.take_add_one, hw, List.flatMap_append]
  simp

theorem MetaInv.next (h : MetaInv d p) {l : WriteLabel} (hl : l.Fits)
    (hnext : d.next l = some d') : MetaInv d' (p.next l) := by
  have htmp := h.tmp
  cases l with
  | create info =>
    simp only [MetaDisk.next] at hnext
    split at hnext
    · cases hnext
      exact ⟨h.paths, h.fits, rfl, hl, rfl⟩
    · cases hnext
  | word =>
    simp only [MetaDisk.next] at hnext
    split at hnext
    · next info n file hpc hfile =>
      obtain ⟨w, hw, rfl⟩ := Option.map_eq_some_iff.mp hnext
      rw [hpc] at htmp
      obtain ⟨hwriting, hfits, hbytes⟩ := htmp
      rw [hfile, Option.some.injEq] at hbytes
      refine ⟨h.paths, h.fits, hwriting, hfits, ?_⟩
      simp only [hbytes, bytes_succ hw]
    · cases hnext
  | sync =>
    simp only [MetaDisk.next] at hnext
    split at hnext
    · next info n file hpc hfile =>
      split at hnext
      · next hn =>
        cases hnext
        rw [hpc] at htmp
        obtain ⟨hwriting, hfits, hbytes⟩ := htmp
        rw [hfile, Option.some.injEq] at hbytes
        refine ⟨h.paths, h.fits, hwriting, hfits, ?_⟩
        rw [hbytes, hn]
        rfl
      · cases hnext
    · cases hnext
  | rename =>
    simp only [MetaDisk.next] at hnext
    split at hnext
    · next info hpc =>
      cases hnext
      rw [hpc] at htmp
      obtain ⟨hwriting, hfits, hfile⟩ := htmp
      refine ⟨?_, ?_, trivial⟩
      · simp only [Published.next, hwriting, hfile, List.map_cons, Option.map_some, ← h.paths]
      · intro info' hmem
        rcases List.mem_cons.mp hmem with heq | hmem
        · rw [hwriting, Option.some.injEq] at heq
          rw [heq]
          exact hfits
        · exact h.fits info' hmem
    · cases hnext
  | fail part =>
    simp only [MetaDisk.next] at hnext
    split at hnext
    · cases hnext
    · cases hnext
      exact ⟨h.paths, h.fits, trivial⟩
    · cases hnext
      exact ⟨h.paths, h.fits, trivial⟩
  | killed =>
    cases hnext
    exact ⟨h.paths, h.fits, trivial⟩
  | powerFailure n lost =>
    obtain ⟨path, hpath, rfl⟩ := Option.map_eq_some_iff.mp hnext
    rw [h.paths, List.getElem?_map] at hpath
    obtain ⟨info, hinfo, rfl⟩ := Option.map_eq_some_iff.mp hpath
    -- what the path led to had been synced before it was renamed
    refine ⟨?_, ?_, trivial⟩
    · simp only [Published.next, hinfo, Option.toList_some, List.map_cons, List.map_nil]
      cases info <;> rfl
    · intro info' hmem
      simp only [Published.next, hinfo, Option.toList_some, List.mem_singleton] at hmem
      exact h.fits info' (List.mem_of_getElem? (hmem ▸ hinfo))

theorem MetaInv.run {ls : List WriteLabel} (h : MetaInv d p)
    (hrun : Lts.Steps MetaDisk.next (fun _ l => l.Fits) d ls d') :
    MetaInv d' (ls.foldl Published.next p) := by
  induction hrun generalizing p with
  | nil => exact h
  | cons hl hnext _ ih => exact ih (h.next hl hnext)

end Atomic

end Tsavorite
