import MiniGarnet.Tsavorite.Epoch
import MiniGarnet.Tsavorite.Geometry
import MiniGarnet.Tsavorite.Record

/-! # The hybrid log

    The log of `log.rs` with its device, as one step per call.  Memory pages
    and the device hold record images: `none` at an offset is the all-zero
    header of a place where no record has been written.  Boundary moves are
    published at once; their consequences are registered with the epoch and
    run by a later drain.
-/

namespace Tsavorite

/-! ## Section 1: The device -/

/-- The disk tier: record images by address, and the length of the file. -/
structure Device where
  data : ℕ → Option Record
  len : ℕ

namespace Device

def empty : Device := ⟨fun _ => none, 0⟩

/-- `write_at(addr, bytes)` with `n` bytes; `bytes i` is the record image at byte `i`. -/
def writeAt (d : Device) (addr n : ℕ) (bytes : ℕ → Option Record) : Device where
  data := fun a => if addr ≤ a ∧ a < addr + n then bytes (a - addr) else d.data a
  len := max d.len (addr + n)

/-- `read_at(addr, buf)` of `n` bytes fails past the end of the file. -/
def canRead (d : Device) (addr n : ℕ) : Bool := addr + n ≤ d.len

end Device

/-! ## Section 2: State -/

/-- The actions the log and the checkpoint register with the epoch. -/
inductive DrainAction where
  /-- `on_pages_marked_read_only(new_ro)` -/
  | markReadOnly (newRo : ℕ)
  /-- `on_pages_closed(new_head)` -/
  | closePages (newHead : ℕ)
  /-- The flag of `transition_and_wait`. -/
  | observe
  deriving DecidableEq, Repr

/-- The mutable part of `HybridLog`; `observed` is the flag the running
    `transition_and_wait` waits for. -/
structure HybridLog where
  tail : ℕ
  beginAddress : ℕ
  closedUntil : ℕ
  safeHead : ℕ
  head : ℕ
  flushedUntil : ℕ
  safeReadOnly : ℕ
  readOnly : ℕ
  /-- Buffer slot → page offset → record image. -/
  pages : ℕ → ℕ → Option Record
  device : Device
  epoch : LightEpoch DrainAction
  observed : Bool

/-- What an allocation attempt came to.  `tooLarge` is the failed assertion
    "record larger than a page". -/
inductive AllocResult where
  | ok (addr : ℕ)
  | retryNow
  | retryLater
  | tooLarge
  deriving DecidableEq, Repr

namespace HybridLog

/-- `HybridLog::new` over a device that may hold older contents. -/
def new (device : Device) : HybridLog where
  tail := pack 0 FIRST_VALID_ADDRESS
  beginAddress := FIRST_VALID_ADDRESS
  closedUntil := 0
  safeHead := FIRST_VALID_ADDRESS
  head := FIRST_VALID_ADDRESS
  flushedUntil := FIRST_VALID_ADDRESS
  safeReadOnly := FIRST_VALID_ADDRESS
  readOnly := FIRST_VALID_ADDRESS
  pages := fun _ _ => none
  device := device
  epoch := LightEpoch.new
  observed := false

variable (g : Geometry)

/-! ## Section 3: Pages -/

/-- The image under `record_at(addr)`, if one has been written there. -/
def slotAt (log : HybridLog) (addr : ℕ) : Option Record :=
  log.pages (g.slotOf (g.pageOf addr)) (g.pageOffset addr)

/-- `record_at(addr)`; zeroed memory reads as the zero record. -/
def recordAt (log : HybridLog) (addr : ℕ) : Record := (log.slotAt g addr).getD Record.zero

/-- Overwrite the record image at an in-memory address. -/
def setRecord (log : HybridLog) (addr : ℕ) (r : Record) : HybridLog :=
  { log with
    pages := fun s o =>
      if s = g.slotOf (g.pageOf addr) ∧ o = g.pageOffset addr then some r else log.pages s o }

/-- An atomic update of the header word of the record at `addr`. -/
def updateInfo (log : HybridLog) (addr : ℕ) (f : RecordInfo → RecordInfo) : HybridLog :=
  let r := log.recordAt g addr
  log.setRecord g addr { r with info := f r.info }

/-- A callback's write to the body of the record at `addr`. -/
def updateData (log : HybridLog) (addr : ℕ) (p : Payload) : HybridLog :=
  let r := log.recordAt g addr
  log.setRecord g addr { r with data := r.data.write p }

/-- The page buffer with the slot of `page` zeroed. -/
def zeroed (pages : ℕ → ℕ → Option Record) (page : ℕ) : ℕ → ℕ → Option Record :=
  fun s o => if s = g.slotOf page then none else pages s o

/-- `write_bytes(page_base_ptr(page), 0, page_size)` -/
def zeroPage (log : HybridLog) (page : ℕ) : HybridLog :=
  { log with pages := zeroed g log.pages page }

/-! ## Section 4: Flushing -/

/-- The page-by-page loop of `flush_until`; the first argument bounds the iterations. -/
def flushLoop (pages : ℕ → ℕ → Option Record) (until_ : ℕ) : ℕ → ℕ → Device → Device
  | 0, _, d => d
  | n + 1, addr, d =>
    if addr < until_ then
      let page := g.pageOf addr
      let pageStart := page <<< g.pageBits
      let start := addr - pageStart
      let stop := min until_ (pageStart + g.pageSize) - pageStart
      let bytes := fun i => pages (g.slotOf page) (start + i)
      flushLoop pages until_ n (pageStart + stop) (d.writeAt addr (stop - start) bytes)
    else d

/-- Flush `[flushed_until, until)` to the device (device calls succeed). -/
def flushUntil (log : HybridLog) (until_ : ℕ) : HybridLog :=
  if until_ ≤ log.flushedUntil then log
  else
    { log with
      device := flushLoop g log.pages until_ (until_ - log.flushedUntil) log.flushedUntil log.device
      flushedUntil := max log.flushedUntil until_ }

/-! ## Section 5: Drain actions -/

/-- Runs once no thread can be updating below `newRo` in place. -/
def onPagesMarkedReadOnly (log : HybridLog) (newRo : ℕ) : HybridLog :=
  ({ log with safeReadOnly := max log.safeReadOnly newRo }).flushUntil g newRo

/-- The loop of `on_pages_closed`; the first argument bounds the iterations. -/
def closeLoop (newHead : ℕ) : ℕ → ℕ → ℕ
  | 0, closed => closed
  | n + 1, closed =>
    if newHead < closed + g.pageSize then closed else closeLoop newHead n (closed + g.pageSize)

/-- Runs once no thread can hold a pointer below `newHead`. -/
def onPagesClosed (log : HybridLog) (newHead : ℕ) : HybridLog :=
  { log with
    safeHead := max log.safeHead newHead
    closedUntil := closeLoop g newHead (newHead + 1) log.closedUntil }

def runAction (log : HybridLog) : DrainAction → HybridLog
  | .markReadOnly newRo => log.onPagesMarkedReadOnly g newRo
  | .closePages newHead => log.onPagesClosed g newHead
  | .observe => { log with observed := true }

/-- `drain`: run the actions that have become safe. -/
def drain (log : HybridLog) : HybridLog :=
  let (ready, epoch) := log.epoch.takeReady
  ready.foldl (fun l a => l.runAction g a) { log with epoch := epoch }

def bumpCurrentEpoch (log : HybridLog) : HybridLog :=
  ({ log with epoch := log.epoch.bump }).drain g

def bumpWithAction (log : HybridLog) (a : DrainAction) : HybridLog :=
  ({ log with epoch := log.epoch.register a }).drain g

/-! ## Section 6: Boundary shifts -/

/-- Publish a new ReadOnly address; after the epoch drains, mark the range safe and
    flush it. -/
def shiftReadOnlyAddress (log : HybridLog) (newRo : ℕ) : HybridLog :=
  if newRo ≤ log.readOnly then log
  else ({ log with readOnly := newRo }).bumpWithAction g (.markReadOnly newRo)

/-- Publish a new Head, clamped to FlushedUntil; after the epoch drains, close the
    pages below it. -/
def shiftHeadAddress (log : HybridLog) (desired : ℕ) : HybridLog :=
  let newHead := min desired log.flushedUntil
  if newHead ≤ log.head then log
  else ({ log with head := newHead }).bumpWithAction g (.closePages newHead)

def desiredHead (next : ℕ) : ℕ := (next + 2 - g.bufferSize) * g.pageSize

def desiredRo (next : ℕ) : ℕ :=
  max ((next + 1 - g.mutablePages) * g.pageSize) (desiredHead g next)

/-- On a page turn to `next`, decide how far ReadOnly and Head should move. -/
def issueShiftAddresses (log : HybridLog) (next : ℕ) : HybridLog :=
  let log := if log.readOnly < desiredRo g next then
    log.shiftReadOnlyAddress g (desiredRo g next) else log
  if log.head < desiredHead g next then log.shiftHeadAddress g (desiredHead g next) else log

/-! ## Section 7: Allocation -/

/-- `try_allocate`, undisturbed by other threads. -/
def tryAllocate (log : HybridLog) (size : ℕ) : AllocResult × HybridLog :=
  if g.pageSize < size + PAGE_HEADER_SIZE then (.tooLarge, log)
  else
    let (page, off) := unpack log.tail
    let log := { log with tail := fetchAdd log.tail size }
    if off + size ≤ g.pageSize then (.ok (page <<< g.pageBits ||| off), log)
    else if g.pageSize < off then (.retryNow, log)
    else if g.pageIsFree log.closedUntil (page + 1) then
      let log := { log.zeroPage g (page + 1) with
        tail := pack (page + 1) (FIRST_VALID_ADDRESS + size) }
      (.ok ((page + 1) <<< g.pageBits ||| FIRST_VALID_ADDRESS), log.issueShiftAddresses g (page + 1))
    else
      let log := { log with tail := pack page g.pageSize }
      (.retryLater, log.issueShiftAddresses g (page + 1))

/-- `try_allocate_retry_now`: spin on `RetryNow`.  Without other threads nobody would
    end the spin; the first argument bounds it. -/
def tryAllocateRetryNow : ℕ → HybridLog → ℕ → AllocResult × HybridLog
  | 0, log, _ => (.retryNow, log)
  | n + 1, log, size =>
    match log.tryAllocate g size with
    | (.retryNow, log) => tryAllocateRetryNow n log size
    | r => r

/-! ## Section 8: Disk reads -/

/-- Read the record at an on-disk address: header first, then the whole record. -/
def readRecordFromDisk (log : HybridLog) (addr : ℕ) : Option Record :=
  if log.device.canRead addr MIN_DISK_READ then
    let r := (log.device.data addr).getD Record.zero
    if log.device.canRead addr r.totalSize then some r else none
  else none

end HybridLog

end Tsavorite
