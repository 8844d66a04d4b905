import Mathlib

/-! # Sector addresses of the AHCI driver -/

namespace Znu.Ahci

/-- The fields of a command frame that say what is done and where. -/
structure FisRegH2D where
  (command lba0 lba1 lba2 device lba3 lba4 lba5 countl : UInt8)

/-- Both functions fill in the frame like this, each with its own command. -/
def sectorFis (command : UInt8) (lba : UInt64) : FisRegH2D where
  command := command
  lba0 := lba.toUInt8
  lba1 := (lba >>> 8).toUInt8
  lba2 := (lba >>> 16).toUInt8
  lba3 := (lba >>> 24).toUInt8
  lba4 := (lba >>> 32).toUInt8
  lba5 := (lba >>> 40).toUInt8
  device := 0x40
  countl := 1

def readFis : UInt64 → FisRegH2D := sectorFis 0xC8

def writeFis : UInt64 → FisRegH2D := sectorFis 0x35

/-- The sector a command addresses. `READ DMA` (0xC8) has an address of 28 bits, the upper four
    of them in `device`, and `WRITE DMA EXT` (0x35) one of 48 bits. -/
def FisRegH2D.sector (fis : FisRegH2D) : Nat :=
  let low := fis.lba0.toNat + 2 ^ 8 * fis.lba1.toNat + 2 ^ 16 * fis.lba2.toNat
  if fis.command = 0xC8 then low + 2 ^ 24 * (fis.device.toNat % 16)
  else low + 2 ^ 24 * fis.lba3.toNat + 2 ^ 32 * fis.lba4.toNat + 2 ^ 40 * fis.lba5.toNat

lemma sectorFis_sector (command : UInt8) (lba : UInt64) :
    (sectorFis command lba).sector = lba.toNat % if command = 0xC8 then 2 ^ 24 else 2 ^ 48 := by
  simp only [sectorFis, FisRegH2D.sector, UInt64.toNat_toUInt8, UInt64.toNat_shiftRight]
  split <;> simp [Nat.shiftRight_eq_div_pow] <;> omega

/-- The sector that is read is the one that is written, and what was written is read back, exactly
    if the 48 bits of the address are less than 2 ^ 24: no higher bits are sent when reading. -/
theorem sector_read_back_iff (lba : UInt64) :
    ((readFis lba).sector = (writeFis lba).sector ∧ ∀ (disk : Nat → List UInt8) data,
      Function.update disk (writeFis lba).sector data (readFis lba).sector = data) ↔
      lba.toNat % 2 ^ 48 < 2 ^ 24 := by
  rw [readFis, writeFis, sectorFis_sector, sectorFis_sector, if_pos rfl, if_neg (by decide)]
  constructor
  · rintro ⟨same, -⟩
    omega
  · intro low
    have same : lba.toNat % 2 ^ 24 = lba.toNat % 2 ^ 48 := by omega
    rw [same]
    exact ⟨rfl, fun disk data => Function.update_self ..⟩

/-- Sector 2 ^ 24 is written, and sector 0 is read. -/
theorem high_sector_differs : (readFis 0x1000000).sector ≠ (writeFis 0x1000000).sector := by decide

end Znu.Ahci
