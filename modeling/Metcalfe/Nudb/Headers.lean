import Metcalfe.Nudb.Disk
import Metcalfe.Nudb.Items

/-!
# The headers of the files of a store

The headers of the data file and of the key file are read and checked each time a database is
opened, recovered or verified. In the files of a database they are those it was created with, and
they pass their checks.
-/

namespace Metcalfe.Nudb

open BigEndian Durable Stateful

namespace Disk

/-- `read(File&, dat_file_header&)`. -/
def readDatHeader : Act DatFileHeader := do
  let buf ← read .dat 0 datFileHeaderSize
  pure (readDatFileHeader buf)

/-- `read(File&, key_file_header&)`. -/
def readKeyHeader : Act KeyFileHeader := do
  let buf ← read .key 0 keyFileHeaderSize
  let size ← size .key
  pure (readKeyFileHeader size buf)

theorem frames_readDatHeader : Frames faults readDatHeader :=
  (frames_read _ _ _).bind fun _ => frames_pure _

theorem frames_readKeyHeader : Frames faults readKeyHeader :=
  (frames_read _ _ _).bind fun _ => (frames_size _).bind fun _ => frames_pure _

end Disk

namespace Config

variable (cfg : Config)

theorem verifyDat_header : verifyDat cfg.datFileHeader = .ok () := by
  have hkey := cfg.keySize_pos
  simp [verifyDat, datFileHeader, pure, Except.pure]
  omega

theorem verifyKey_header {n : Nat} (hn : 0 < n) :
    verifyKey cfg.hasher (cfg.keyFileHeader n) = .ok () := by
  have hkey := cfg.keySize_pos
  have hload := cfg.loadFactor_pos
  have hcap : 0 < cfg.capacity := cfg.capacity_pos
  have h1 : ¬ cfg.keySize < 1 := by omega
  have h2 : ¬ cfg.loadFactor < 1 := by omega
  have h3 : ¬ cfg.capacity < 1 := by omega
  have h4 : ¬ n < 1 := by omega
  simp only [verifyKey, keyFileHeader, h1, h2, h3, h4, ne_eq, not_true, if_false]
  rfl

theorem verify_header {n : Nat} (hn : 0 < n) :
    verify cfg.hasher cfg.datFileHeader (cfg.keyFileHeader n) = .ok () := by
  rw [verify, cfg.verifyKey_header hn]
  simp [datFileHeader, keyFileHeader, pure, Except.pure, bind, Except.bind]

theorem readDatHeader_leads {d : Disk}
    (h : writeDatFileHeader cfg.datFileHeader <+: d.files.bytes .dat) :
    Leads Disk.readDatHeader d (fun dh d' => dh = cfg.datFileHeader ∧ d'.files = d.files)
      (Disk.Kept d) := by
  obtain ⟨t, ht⟩ := h
  have hlen := length_writeDatFileHeader cfg.datFileHeader
  have hread := Disk.read_leads (show 0 + datFileHeaderSize ≤ (d.files.bytes .dat).length by
    rw [← ht, List.length_append, hlen]
    omega)
  rw [← ht, slice_start hlen] at hread
  unfold Disk.readDatHeader
  refine hread.bind fun buf d' hbuf => leads_pure ⟨?_, hbuf.2⟩
  rw [hbuf.1, readDatFileHeader_write _ (by simp [datFileHeader, currentVersion]) cfg.keySize_lt]
  rfl

theorem readKeyHeader_leads {d : Disk}
    (h : (d.files.bytes .key).take cfg.blockSize = cfg.headerBlock) :
    Leads Disk.readKeyHeader d
      (fun kh d' => kh = cfg.keyFileHeader
        (bucketsOfFileSize (d.files.bytes .key).length cfg.blockSize) ∧ d'.files = d.files)
      (fun _ d' => d'.files = d.files) := by
  have hlen := length_writeKeyFileHeader (cfg.keyFileHeader 0)
  have hsize := keyFileHeaderSize_le cfg.capacity_pos
  have hlong : cfg.blockSize ≤ (d.files.bytes .key).length := by
    have := congrArg List.length h
    rw [cfg.length_headerBlock, List.length_take] at this
    omega
  have hslice : slice (d.files.bytes .key) 0 keyFileHeaderSize =
      writeKeyFileHeader (cfg.keyFileHeader 0) := by
    have hcut := congrArg (fun b => slice b 0 keyFileHeaderSize) h
    have htake : (d.files.bytes .key).take cfg.blockSize =
        slice (d.files.bytes .key) 0 cfg.blockSize := by simp [slice]
    rw [htake, slice_slice (by omega), headerBlock, slice_start hlen] at hcut
    exact hcut
  have hread := Disk.read_leads (show 0 + keyFileHeaderSize ≤ (d.files.bytes .key).length by omega)
  rw [hslice] at hread
  unfold Disk.readKeyHeader
  refine (hread.mono (fun _ _ h => h) fun _ _ h => h.2).bind fun buf d₁ hbuf => ?_
  obtain ⟨rfl, hfiles⟩ := hbuf
  refine ((Disk.size_leads d₁ .key).mono (fun _ _ h => h) fun _ _ h => h.2.trans hfiles).bind
    fun size d₂ hsz => leads_pure ⟨?_, hsz.2.trans hfiles⟩
  rw [hsz.1, hfiles, readKeyFileHeader_write _ (by simp [keyFileHeader, currentVersion])
    cfg.keySize_lt cfg.blockSize_lt cfg.loadFactor_lt]
  rfl

end Config

end Metcalfe.Nudb
