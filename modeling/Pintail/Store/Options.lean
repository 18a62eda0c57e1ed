import Pintail.Store.Error

/-! # Storage settings -/

namespace Pintail

inductive WalSync
  | always
  | checkpoint
  | off

structure StoreOptions where
  memtableBytes : ℕ
  blockRows : ℕ
  walSync : WalSync
  compactionFanIn : ℕ
  maxCompactionInputRows : ℕ
  maxCompactionRows : ℕ
  maxCompactionOutputBytes : ℕ
  compactionFilePressure : ℕ
  compactionDiskReserveBytes : ℕ
  backgroundCompaction : Bool
  /-- A local table: rows appear only through a commit. -/
  transactional : Bool

namespace StoreOptions

def default : StoreOptions where
  memtableBytes := 64 * 1024 * 1024
  blockRows := 16 * 1024
  walSync := .checkpoint
  compactionFanIn := 4
  maxCompactionInputRows := 8000000
  maxCompactionRows := 4000000
  maxCompactionOutputBytes := 128 * 1024 * 1024
  compactionFilePressure := 16
  compactionDiskReserveBytes := 64 * 1024 * 1024
  backgroundCompaction := true
  transactional := false

def validate (options : StoreOptions) : Except StoreError Unit :=
  if options.blockRows = 0 then
    .error (.formatLimit "segment block row target must be non-zero")
  else if options.compactionFanIn < 2 then
    .error (.formatLimit "compaction fan-in must be at least two")
  else if options.maxCompactionRows = 0 ∨ options.maxCompactionInputRows = 0 then
    .error (.formatLimit "compaction row bounds must be non-zero")
  else if options.maxCompactionOutputBytes = 0 then
    .error (.formatLimit "compaction output byte bound must be non-zero")
  else .ok ()

structure Valid (options : StoreOptions) : Prop where
  blockRows_pos : 0 < options.blockRows
  fanIn_le : 2 ≤ options.compactionFanIn
  rows_pos : 0 < options.maxCompactionRows
  inputRows_pos : 0 < options.maxCompactionInputRows
  outputBytes_pos : 0 < options.maxCompactionOutputBytes

theorem valid_of_validate {options : StoreOptions} (h : options.validate = .ok ()) :
    options.Valid := by
  unfold validate at h
  split_ifs at h with h1 h2 h3 h4
  exact ⟨by omega, by omega, by omega, by omega, by omega⟩

end StoreOptions

end Pintail
