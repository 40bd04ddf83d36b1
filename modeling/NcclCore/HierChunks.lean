import NcclCore.Bitops

/-! The chunk plans of the hierarchical collectives (`ce_coll.cc`). All chunks but the last are
rounded down to the alignment and the last one takes what is left, which can be more than the
limit that the number of chunks was computed from. -/
namespace NcclCore

/-- `HIER_COLL_MAX_CHUNK_SIZE`. -/
def hierCollMaxChunkSize : Nat := 64 * 1024 * 1024

/-- `HIER_COLL_CHUNK_ALIGN`. -/
def hierCollChunkAlign : Nat := 8 * 1024

/-- `ncclHierCollChunkWidth`, with nothing for a division by zero. -/
def ncclHierCollChunkWidth (perPeerBytes numCtx : Nat) : Option Nat :=
  if 1 < numCtx then
    let perCtx := divUp perPeerBytes numCtx
    let chunksPerCtx := divUp perCtx hierCollMaxChunkSize
    if numCtx * chunksPerCtx = 0 then none
    else
      let target := alignUp (divUp perPeerBytes (numCtx * chunksPerCtx)) hierCollChunkAlign
      some (min target hierCollMaxChunkSize)
  else some hierCollMaxChunkSize

/-- `ncclHierCollRingChunkWidth`. -/
def ncclHierCollRingChunkWidth (perRankBytes cwBytes ccwBytes numCtx : Nat) : Option Nat :=
  (ncclHierCollChunkWidth perRankBytes numCtx).map fun maxChunk =>
    let halfBytes := max cwBytes ccwBytes
    if numCtx < 4 ∨ perRankBytes < 128 * 1024 * 1024 ∨ halfBytes = 0 then maxChunk
    else
      let halfAware := min (alignUp (divUp halfBytes numCtx) hierCollChunkAlign) hierCollMaxChunkSize
      min maxChunk (max halfAware (8 * 1024 * 1024))

/-- What is cut, and the limit for it: the slice of a rank, or half of it in a ring. -/
inductive HierSlice where
  | rank (perRankBytes numCtx : Nat)
  | half (perRankBytes cwBytes ccwBytes numCtx : Nat) (clockwise : Bool)

namespace HierSlice

def bytes : HierSlice → Nat
  | rank perRankBytes _ => perRankBytes
  | half _ cwBytes ccwBytes _ clockwise => if clockwise then cwBytes else ccwBytes

def maxChunk : HierSlice → Option Nat
  | rank perRankBytes numCtx => ncclHierCollChunkWidth perRankBytes numCtx
  | half perRankBytes cwBytes ccwBytes numCtx _ => ncclHierCollRingChunkWidth perRankBytes cwBytes ccwBytes numCtx

end HierSlice

/-- `ncclHierChunkPlan`; `chunks` are `chunkBytes` and `chunkOff`. -/
structure HierChunkPlan where
  chunkStart : List Nat
  chunks : List (Nat × Nat)

/-- The chunks of a peer. -/
def HierChunkPlan.peer (plan : HierChunkPlan) (p : Nat) : List (Nat × Nat) :=
  (plan.chunks.take (plan.chunkStart.getD (p + 1) 0)).drop (plan.chunkStart.getD p 0)

/-- The loop over the chunks of a peer, with as many chunks to come. -/
def peerChunks (uniformSize lastChunk : Nat) : (left off : Nat) → List (Nat × Nat)
  | 0, _ => []
  | 1, off => [(lastChunk, off)]
  | left + 2, off => (uniformSize, off) :: peerChunks uniformSize lastChunk (left + 1) (off + uniformSize)

def uniformSize (perRankBytes numChunks : Nat) : Nat :=
  max (perRankBytes / numChunks / hierCollChunkAlign * hierCollChunkAlign) hierCollChunkAlign

/-- What is left for the last chunk, modulo 2^64. -/
def lastChunk (perRankBytes uniform : Nat) (numChunks : Int) : Nat :=
  ((perRankBytes - uniform * (numChunks - 1)) % 2 ^ 64).toNat

/-- The number of chunks, an `int` that becomes a `size_t` where it divides, and their sizes. -/
def chunkSizes (perRankBytes maxChunk : Nat) : Option (Int × Nat × Nat) :=
  if perRankBytes = 0 ∨ maxChunk = 0 ∨ perRankBytes ≤ maxChunk then some (1, perRankBytes, perRankBytes)
  else
    let numChunks := Int.bmod (divUp perRankBytes maxChunk) (2 ^ 32)
    let uniform := uniformSize perRankBytes (numChunks % 2 ^ 64).toNat
    if numChunks = 0 then none
    else some (numChunks, uniform, lastChunk perRankBytes uniform numChunks)

/-- `ncclHierCollBuildChunk`. The lengths of the arrays are of type `int`. -/
def ncclHierCollBuildChunk (perRankBytes nPeers maxChunk : Nat) : Option HierChunkPlan :=
  (chunkSizes perRankBytes maxChunk).bind fun (numChunks, uniform, last) =>
    if nPeers + 1 < 2 ^ 31 ∧ 0 ≤ nPeers * numChunks ∧ nPeers * numChunks < 2 ^ 31 then
      some ⟨(List.range (nPeers + 1)).map (· * numChunks.toNat),
        (List.replicate nPeers (peerChunks uniform last numChunks.toNat 0)).flatten⟩
    else none

namespace HierChunks
open List

/-- The chunks follow one another from here to the end of the slice, as they should be. -/
def Tiles (slice maxChunk : Nat) : (off : Nat) → List (Nat × Nat) → Prop
  | off, [] => off = slice
  | off, (bytes, start) :: rest => start = off ∧ bytes ≤ maxChunk ∧ (bytes = 0 → slice = 0) ∧
      (rest ≠ [] → hierCollChunkAlign ∣ bytes) ∧ Tiles slice maxChunk (off + bytes) rest

/-- There is a plan, and it gives every peer the same chunks. -/
def Planned (slice nPeers maxChunk : Nat) : Prop :=
  ∃ plan, ncclHierCollBuildChunk slice nPeers maxChunk = some plan ∧
    ∃ chunks, ∀ p < nPeers, plan.peer p = chunks ∧ Tiles slice maxChunk 0 chunks

theorem divUp_zero (positive : 0 < y) : divUp 0 y = 0 :=
  Nat.le_zero.mp ((divUp_le_iff positive).mpr (Nat.zero_le _))

theorem width_ok (is : ncclHierCollChunkWidth bytes numCtx = some width) :
    0 < width ∧ hierCollChunkAlign ∣ width ∧ width ≤ hierCollMaxChunkSize := by
  unfold ncclHierCollChunkWidth at is
  split at is
  next several =>
    dsimp only at is
    split at is
    · cases is
    next cut =>
      obtain rfl := Option.some.inj is
      have nonempty : 0 < bytes := by
        by_contra empty
        obtain rfl : bytes = 0 := by omega
        rw [divUp_zero (by omega)] at cut
        exact cut rfl
      have target := (divUp_pos (Nat.pos_of_ne_zero cut) nonempty).trans_le
        (le_alignUp _ (show 0 < hierCollChunkAlign by decide))
      exact ⟨lt_min target (by decide), min_rec' (hierCollChunkAlign ∣ ·) (dvd_alignUp _ _) (by decide),
        Nat.min_le_right _ _⟩
  next =>
    obtain rfl := Option.some.inj is
    decide

theorem maxChunk_ok (slice : HierSlice) (is : slice.maxChunk = some width) :
    0 < width ∧ hierCollChunkAlign ∣ width ∧ width ≤ hierCollMaxChunkSize := by
  cases slice with
  | rank => exact width_ok is
  | half =>
    obtain ⟨plain, of, rfl⟩ := Option.map_eq_some_iff.mp is
    obtain ⟨positive, aligned, bounded⟩ := width_ok of
    dsimp only
    split
    · exact ⟨positive, aligned, bounded⟩
    · refine ⟨lt_min positive (lt_max_of_lt_right (by decide)), ?_, (Nat.min_le_left _ _).trans bounded⟩
      -- every candidate of the two minima and the maximum is aligned
      exact min_rec' (hierCollChunkAlign ∣ ·) aligned (max_rec' (hierCollChunkAlign ∣ ·)
        (min_rec' (hierCollChunkAlign ∣ ·) (dvd_alignUp _ _) (by decide)) (by decide))

section
variable {slice nPeers width uniform last off : Nat}

theorem peerChunks_length (uniform last left off : Nat) : (peerChunks uniform last left off).length = left := by
  induction left using Nat.twoStepInduction generalizing off with
  | zero | one => rfl
  | more left _ ih => exact congrArg (· + 1) (ih _)

theorem slice_le_of_tiles (tiles : Tiles slice width off chunks) : slice ≤ off + chunks.length * width := by
  induction chunks generalizing off with
  | nil => exact Nat.le_of_eq (tiles.symm.trans (by simp))
  | cons chunk rest ih =>
    obtain ⟨-, fits, -, -, others⟩ := tiles
    have := ih others
    rw [length_cons, add_one_mul]
    omega

theorem tiles_peerChunks_iff (positive : 0 < uniform) (aligned : hierCollChunkAlign ∣ uniform)
    (fits : uniform ≤ width) (left : Nat) :
    Tiles slice width off (peerChunks uniform last (left + 1) off) ↔
      off + left * uniform + last = slice ∧ last ≤ width ∧ (last = 0 → slice = 0) := by
  induction left generalizing off with
  | zero =>
    simp [peerChunks, Tiles]
    tauto
  | succ left ih =>
    rw [peerChunks, Tiles, ih, add_one_mul, add_assoc off, add_comm uniform]
    have nonempty : uniform = 0 → slice = 0 := by omega
    tauto

theorem peer_eq (chunks : List (Nat × Nat)) (counted : chunks.length = each) (known : p < nPeers) :
    HierChunkPlan.peer ⟨(range (nPeers + 1)).map (· * each), (replicate nPeers chunks).flatten⟩ p =
      chunks := by
  obtain ⟨more, rfl⟩ := Nat.exists_eq_add_of_lt known
  have before : (replicate p chunks).flatten.length = p * each := by simp [counted]
  have start : ∀ q < p + more + 1 + 1, ((range (p + more + 1 + 1)).map (· * each)).getD q 0 = q * each := by
    intro q below
    simp [below]
  rw [HierChunkPlan.peer, start _ (by omega), add_assoc p, add_comm more,
    ← replicate_append_replicate, ← replicate_append_replicate, flatten_append, flatten_append, replicate_one,
    flatten_singleton, ← append_assoc, take_left' (by simp [counted, add_one_mul]), drop_left' before]

theorem planned_iff (sizes : chunkSizes slice width = some (numChunks, uniform, last)) :
    Planned slice nPeers width ↔
      (nPeers + 1 < 2 ^ 31 ∧ 0 ≤ nPeers * numChunks ∧ nPeers * numChunks < 2 ^ 31) ∧
        (nPeers ≠ 0 → Tiles slice width 0 (peerChunks uniform last numChunks.toNat 0)) := by
  have same := fun p (known : p < nPeers) => peer_eq _ (peerChunks_length uniform last numChunks.toNat 0) known
  unfold Planned ncclHierCollBuildChunk
  rw [sizes, Option.bind_some]
  dsimp only
  split
  next room =>
    constructor
    · rintro ⟨_, built, chunks, all⟩
      obtain rfl := Option.some.inj built
      refine ⟨room, fun peers => ?_⟩
      obtain ⟨here, tiles⟩ := all 0 (Nat.pos_of_ne_zero peers)
      rwa [← here, same 0 (Nat.pos_of_ne_zero peers)] at tiles
    · rintro ⟨_, tiles⟩
      exact ⟨_, rfl, _, fun p known => ⟨same p known, tiles (by omega)⟩⟩
  next full =>
    exact ⟨fun ⟨_, absurd, _⟩ => (nomatch absurd), fun ⟨room, _⟩ => absurd room full⟩

theorem uniformSize_le (slice : Nat) (positive : 0 < width) (aligned : hierCollChunkAlign ∣ width) :
    uniformSize slice (divUp slice width) ≤ width := by
  have quotient : slice / divUp slice width ≤ width := Nat.div_le_of_le_mul (le_divUp_mul positive)
  exact max_le ((Nat.div_mul_le_self _ _).trans quotient) (Nat.le_of_dvd positive aligned)

/-- When a plan for this many peers is as it should be: the arrays have room, and what the
rounding leaves for the last chunk is within the limit. -/
def Fits (slice nPeers width : Nat) : Prop :=
  nPeers + 1 < 2 ^ 31 ∧ (slice ≤ width ∨ (nPeers = 0 ∧ ¬ 2 ^ 32 ∣ divUp slice width) ∨
    nPeers ≠ 0 ∧ nPeers * divUp slice width < 2 ^ 31 ∧
      slice ≤ (divUp slice width - 1) * uniformSize slice (divUp slice width) + width)

theorem tiles_lastChunk_iff {numChunks : Int} (bounded : width ≤ hierCollMaxChunkSize)
    (fits : uniformSize slice (left + 1) ≤ width) (small : left + 1 < 2 ^ 31) (least : left * width < slice)
    (is : numChunks = (left + 1 : Nat)) :
    Tiles slice width 0 (peerChunks (uniformSize slice (numChunks % 2 ^ 64).toNat)
        (lastChunk slice (uniformSize slice (numChunks % 2 ^ 64).toNat) numChunks) numChunks.toNat 0) ↔
      slice ≤ left * uniformSize slice (left + 1) + width := by
  have positive : 0 < uniformSize slice (left + 1) := lt_max_of_lt_right (by decide)
  have whole : hierCollChunkAlign ∣ uniformSize slice (left + 1) :=
    max_rec' (hierCollChunkAlign ∣ ·) (Nat.dvd_mul_left _ _) (Nat.dvd_refl _)
  have below := Nat.mul_le_mul_left left fits
  rw [is, lastChunk, Int.toNat_natCast, show ((left + 1 : Nat) % 2 ^ 64 : Int).toNat = left + 1 by omega,
    tiles_peerChunks_iff positive whole fits, Int.mul_comm, show (left + 1 : Nat) - 1 = (left : Int) by omega,
    ← Int.natCast_mul]
  generalize left * uniformSize slice (left + 1) = others at *
  have limit : hierCollMaxChunkSize = 2 ^ 26 := by decide
  omega

theorem many_tile_iff (positive : 0 < width) (aligned : hierCollChunkAlign ∣ width)
    (bounded : width ≤ hierCollMaxChunkSize) (many : width < slice) :
    Planned slice nPeers width ↔ Fits slice nPeers width := by
  have uniform := uniformSize_le slice positive aligned
  have covered := le_divUp_mul (x := slice) positive
  have least := divUp_mul_lt (x := slice) positive
  have sizes : chunkSizes slice width = _ := if_neg (by omega)
  have nonzero := divUp_pos positive (show 0 < slice by omega)
  unfold Fits
  dsimp only at sizes
  generalize divUp slice width = count at *
  obtain ⟨left, rfl⟩ := Nat.exists_eq_add_one.mpr nonzero
  have truncated := Int.bmod_def (left + 1 : Nat) (2 ^ 32)
  generalize cast : Int.bmod (left + 1 : Nat) (2 ^ 32) = numChunks at *
  rw [Nat.succ_mul] at covered least
  by_cases zero : numChunks = 0
  · -- the cast of the number of chunks divides by zero
    rw [if_pos zero] at sizes
    unfold Planned ncclHierCollBuildChunk
    rw [sizes]
    refine ⟨fun ⟨_, absurd, _⟩ => (nomatch absurd), ?_⟩
    rintro ⟨_, one | ⟨_, off⟩ | ⟨peers, room, _⟩⟩
    · omega
    · omega
    · have := Nat.le_mul_of_pos_left (left + 1) (Nat.pos_of_ne_zero peers)
      omega
  rw [if_neg zero] at sizes
  rw [planned_iff sizes]
  by_cases none : nPeers = 0
  · subst none
    omega
  constructor
  · rintro ⟨⟨peers, signed, room⟩, tiles⟩
    have tiles := tiles none
    have enough := slice_le_of_tiles tiles
    rw [peerChunks_length] at enough
    have more : left < numChunks.toNat := Nat.lt_of_mul_lt_mul_right (a := width) (by omega)
    have is : numChunks = (left + 1 : Nat) := by omega
    have room : nPeers * (left + 1) < 2 ^ 31 := by exact_mod_cast is ▸ room
    have small := Nat.le_mul_of_pos_left (left + 1) (Nat.pos_of_ne_zero none)
    rw [tiles_lastChunk_iff bounded uniform (by omega) (by omega) is] at tiles
    exact ⟨peers, .inr (.inr ⟨none, room, tiles⟩)⟩
  · rintro ⟨peers, one | ⟨off, _⟩ | ⟨_, room, last⟩⟩
    · omega
    · exact absurd off none
    have small := Nat.le_mul_of_pos_left (left + 1) (Nat.pos_of_ne_zero none)
    have is : numChunks = (left + 1 : Nat) := by omega
    rw [tiles_lastChunk_iff bounded uniform (by omega) (by omega) is, is]
    exact ⟨⟨peers, Int.natCast_nonneg _, by exact_mod_cast room⟩, fun _ => last⟩

end

/-- The plan of a slice gives every peer chunks as they should be exactly when it fits. -/
theorem chunks_tile_iff (slice : HierSlice) (nPeers : Nat) (limit : slice.maxChunk = some width) :
    Planned slice.bytes nPeers width ↔ Fits slice.bytes nPeers width := by
  obtain ⟨positive, aligned, bounded⟩ := maxChunk_ok slice limit
  rcases Nat.lt_or_ge width slice.bytes with many | one
  · exact many_tile_iff positive aligned bounded many
  · rw [planned_iff (if_pos (.inr (.inr one)))]
    constructor
    · exact fun ⟨room, _⟩ => ⟨room.1, .inl one⟩
    · exact fun ⟨room, _⟩ => ⟨⟨room, by omega, by omega⟩, fun _ =>
        ⟨rfl, one, id, fun others => absurd rfl others, Nat.zero_add _⟩⟩

theorem three_megabytes_tile : Planned (3 * 1024 * 1024) 2 (1024 * 1024) :=
  (chunks_tile_iff (.rank (3 * 1024 * 1024) 3) 2 (by decide)).mpr (by unfold Fits; decide)

/-- One byte less than three full chunks: two chunks lose their last alignment unit to the third. -/
theorem last_chunk_too_large : ncclHierCollChunkWidth (3 * hierCollMaxChunkSize - 1) 1 = some hierCollMaxChunkSize ∧
    (ncclHierCollBuildChunk (3 * hierCollMaxChunkSize - 1) 1 hierCollMaxChunkSize).map (·.peer 0) =
      some [(67100672, 0), (67100672, 67100672), (67125247, 134201344)] ∧ hierCollMaxChunkSize < 67125247 := by
  decide

end NcclCore.HierChunks
