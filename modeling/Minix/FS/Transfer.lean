import Minix.FS.Pipe

/-!
# Transfers

What `read_write` moves between a pipe and its user, chunk by chunk: only zones change, the
position stays within bounds, and without faults the bytes are those of the file.
-/

namespace Minix.FS.Pipes

open Function

section Frame

variable {flag : RwFlag} {io : Nat → ChunkIo} {fSize : Nat}

theorem clearZone_ip (ip : Inode) (pos : Nat) (flag : Bool) :
    ∃ z, clearZone ip pos flag = { ip with iZone := z } := by
  unfold clearZone
  dsimp only
  split_ifs <;> exact ⟨_, rfl⟩

theorem newBlock_ip (ip : Inode) (position : Nat) (zone : Nat → Block) :
    ∃ z, newBlock ip position zone = { ip with iZone := z } := by
  unfold newBlock storeBlock
  dsimp only
  split
  · exact ⟨_, rfl⟩
  · split
    · obtain ⟨z, hz⟩ := clearZone_ip
        { ip with iZone := update ip.iZone (zoneOf ip position) (some zone) } position true
      rw [hz]
      exact ⟨_, rfl⟩
    · exact ⟨_, rfl⟩

/-- A chunk changes nothing but zones. -/
theorem rwChunk_ip (flag : RwFlag) (ip : Inode) (position off chunk : Nat) (user : Nat → UInt8)
    (buff : Nat) (c : ChunkIo) :
    ∃ z, (rwChunk flag ip position off chunk user buff c).2.1 = { ip with iZone := z } := by
  unfold rwChunk
  cases flag with
  | READING =>
    dsimp only
    split
    · exact ⟨_, rfl⟩
    · exact ⟨_, rfl⟩
  | WRITING =>
    dsimp only
    split
    · split
      · exact ⟨_, rfl⟩
      · obtain ⟨z, hz⟩ := newBlock_ip ip position c.zone
        rw [hz]
        split
        · exact ⟨_, rfl⟩
        · exact ⟨_, rfl⟩
    · split
      · exact ⟨_, rfl⟩
      · exact ⟨_, rfl⟩

theorem rwLoop_ip (flag : RwFlag) (io : Nat → ChunkIo) (fSize fuel i : Nat) (ip : Inode)
    (user : Nat → UInt8) (position buff nbytes : Nat) : ∃ z,
      (rwLoop flag io fSize fuel i ip user position buff nbytes).ip = { ip with iZone := z } := by
  induction fuel generalizing i ip user position buff nbytes with
  | zero => exact ⟨_, rfl⟩
  | succ fuel ih =>
    unfold rwLoop
    dsimp only
    split
    · exact ⟨_, rfl⟩
    · obtain ⟨z, hz⟩ := rwChunk_ip flag ip position (position % BLOCK_SIZE)
        (chunkSize flag fSize position nbytes) user buff (io i)
      rw [hz]
      split
      · obtain ⟨z', hz'⟩ := ih (i + 1) { ip with iZone := z } _
          (position + chunkSize flag fSize position nbytes) _ _
        exact ⟨z', hz'⟩
      · exact ⟨z, rfl⟩

theorem chunkSize_le (flag : RwFlag) (fSize position nbytes : Nat) :
    chunkSize flag fSize position nbytes ≤ nbytes := by
  unfold chunkSize
  cases flag with
  | READING => exact (Nat.min_le_left _ _).trans (Nat.min_le_left _ _)
  | WRITING => exact Nat.min_le_left _ _

/-- The position moves on by the size of the request at most. -/
theorem rwLoop_position (flag : RwFlag) (io : Nat → ChunkIo) (fSize fuel i : Nat) (ip : Inode)
    (user : Nat → UInt8) (position buff nbytes : Nat) :
    position ≤ (rwLoop flag io fSize fuel i ip user position buff nbytes).position ∧
    (rwLoop flag io fSize fuel i ip user position buff nbytes).position ≤ position + nbytes := by
  induction fuel generalizing i ip user position buff nbytes with
  | zero => exact ⟨le_rfl, Nat.le_add_right _ _⟩
  | succ fuel ih =>
    have hle := chunkSize_le flag fSize position nbytes
    unfold rwLoop
    dsimp only
    split
    · exact ⟨le_rfl, Nat.le_add_right _ _⟩
    · split
      · obtain ⟨h₁, h₂⟩ := ih (i + 1) _ _ (position + chunkSize flag fSize position nbytes) _
          (nbytes - chunkSize flag fSize position nbytes)
        exact ⟨(Nat.le_add_right _ _).trans h₁, h₂.trans (by omega)⟩
      · exact ⟨le_rfl, Nat.le_add_right _ _⟩

end Frame

/-- Nothing comes of a chunk that is to be written. -/
def chunkFails (ip : Inode) (position : Nat) (c : ChunkIo) : Prop :=
  c.fault = some .badUser ∨ c.fault = some .disk ∨
    c.fault = some .noSpace ∧ readMap ip position = none

theorem rwChunk_fails {ip : Inode} {position : Nat} {c : ChunkIo} (h : chunkFails ip position c)
    (off chunk : Nat) (user : Nat → UInt8) (buff : Nat) :
    (rwChunk .WRITING ip position off chunk user buff c).1 = false := by
  unfold rwChunk
  dsimp only
  rcases h with hf | hf | ⟨hf, hm⟩
  · rw [hf]
    split
    · rw [if_neg (by decide), if_pos rfl]
    · rw [if_pos rfl]
  · rw [hf]
    split
    · rw [if_neg (by decide), if_neg (by decide)]
      rfl
    · rw [if_neg (by decide)]
      rfl
  · rw [hf, hm]
    rfl

/-- A write whose first chunk fails moves nothing. -/
theorem rwLoop_stuck {ip : Inode} {position : Nat} {io : Nat → ChunkIo}
    (h : chunkFails ip position (io 0)) (fSize fuel : Nat) (user : Nat → UInt8)
    (buff nbytes : Nat) :
    (rwLoop .WRITING io fSize fuel 0 ip user position buff nbytes).position = position := by
  cases fuel with
  | zero => rfl
  | succ fuel =>
    unfold rwLoop
    dsimp only
    split
    · rfl
    · rw [rwChunk_fails h]
      rfl

end Minix.FS.Pipes
