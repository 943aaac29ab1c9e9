import ShannonNet.Client.Decrypt
import ShannonNet.Library.Burst
import ShannonNet.Library.Runs

namespace ShannonNet.Client

open Library.Bitset Library.Buffer Library.Crc Library.Loop Library.Runs Server Utils

variable (cfg : Config)

/-- The buffer of `gather` after `num` pieces; what a piece lacks is zero. -/
def pieces (piece : ℕ → Option Bytes) (num : ℕ) : Bytes :=
  (List.range num).flatMap (fun n ↦ load cfg.pieceSize ((piece n).getD []) 0) ++
    zeros (cfg.secretASize - num * cfg.pieceSize)

/-- The slot without the files of the first pieces. -/
def withoutPieces (s : Slot) (num : ℕ) : Slot :=
  { s with piece := fun n ↦ if n < num then none else s.piece n }

/-- The report reaches an index the server knows. -/
def reported (nodeId isValid : ℕ) (s : Slot) : Slot :=
  if (s.time .server).isSome then
    { s with valid := Function.update s.valid nodeId (some isValid) }
  else s

def accepted (nodeId : ℕ) (bufferVec : Bytes) (s : Slot) : Slot :=
  let s := reported nodeId nodeSecretValid s
  { s with secret := Function.update s.secret (.client, nodeId) (some bufferVec) }

/-- The server throws its secret away. -/
def rejected (nodeId : ℕ) (s : Slot) : Slot :=
  if (s.time .server).isSome then
    { reported nodeId nodeSecretInvalid s with
      secret := Function.update s.secret (.server, nodeId) none }
  else s

variable (crc32c : Bytes → UInt32) (dir : ℕ → Bool) (nodeId progress : ℕ)

/-- `gather` alone, from one state to the next. -/
def gatherNext (p : Gather × Slot) : Option (Gather × Slot) :=
  p.1.step cfg crc32c dir nodeId progress p.2

variable {cfg} {crc32c dir nodeId progress} {s t : Slot} {bufferVec : Bytes}

section Buffer

variable {piece : ℕ → Option Bytes} {num : ℕ}

theorem pieces_filled (piece : ℕ → Option Bytes) (num : ℕ) :
    ((List.range num).flatMap fun n ↦
      load cfg.pieceSize ((piece n).getD []) 0).length = num * cfg.pieceSize := by
  rw [flatMap_length _ _ cfg.pieceSize fun n _ ↦ load_length _ _ _, List.length_range]

theorem pieces_room (hnum : num < cfg.progress) :
    num * cfg.pieceSize + cfg.pieceSize ≤ cfg.secretASize := by
  rw [← cfg.progress_mul, ← Nat.succ_mul]
  exact Nat.mul_le_mul_right _ hnum

theorem pieces_length (hnum : num ≤ cfg.progress) :
    (pieces cfg piece num).length = cfg.secretASize := by
  have hle := Nat.mul_le_mul_right cfg.pieceSize hnum
  rw [cfg.progress_mul] at hle
  rw [pieces, List.length_append, pieces_filled, zeros_length]
  omega

theorem load_eq_append (file : Bytes) (n : ℕ) :
    load n file 0 = readAt file 0 n ++ zeros (n - (readAt file 0 n).length) := by
  simp [load, overlay, zeros]

theorem pieces_succ {file : Bytes} (hnum : num < cfg.progress) (hpiece : piece num = some file) :
    overlay (pieces cfg piece num) (num * cfg.eachNum * cfg.sLen)
      (readAt file 0 (cfg.eachNum * cfg.sLen)) = pieces cfg piece (num + 1) := by
  have hroom := pieces_room hnum
  have hdata : (readAt file 0 cfg.pieceSize).length ≤ cfg.pieceSize := List.length_take_le _ _
  have hoverlay := overlay_append_zeros
    ((List.range num).flatMap fun n ↦ load cfg.pieceSize ((piece n).getD []) 0)
    (readAt file 0 cfg.pieceSize) (cfg.secretASize - num * cfg.pieceSize)
  rw [pieces_filled] at hoverlay
  rw [Nat.mul_assoc, ← Config.pieceSize, pieces, hoverlay, pieces, List.range_succ,
    List.flatMap_append, List.flatMap_singleton, hpiece, Option.getD_some, load_eq_append,
    Nat.succ_mul]
  simp only [List.append_assoc, zeros, List.replicate_append_replicate]
  congr 4
  omega

theorem pieces_missing (hnum : num < cfg.progress) (hpiece : piece num = none) :
    pieces cfg piece num = pieces cfg piece (num + 1) := by
  have hroom := pieces_room hnum
  rw [pieces, pieces, List.range_succ, List.flatMap_append, List.flatMap_singleton, hpiece,
    Option.getD_none, load_nil, Nat.succ_mul]
  simp only [List.append_assoc, zeros, List.replicate_append_replicate]
  congr 2
  omega

/-- The pieces of a content make it up. -/
theorem pieces_pieceOf {content : Bytes} (hcontent : content.length = cfg.secretASize) :
    pieces cfg (fun n ↦ some (pieceOf cfg content n)) cfg.progress = content := by
  have hload (n : ℕ) (hn : n ∈ List.range cfg.progress) :
      load cfg.pieceSize (pieceOf cfg content n) 0 = readAt content (0 + n * cfg.pieceSize)
        cfg.pieceSize := by
    have hlen : (pieceOf cfg content n).length = cfg.pieceSize :=
      readAt_length (pieceOf_room hcontent (List.mem_range.mp hn))
    rw [load_self hlen, Nat.zero_add, pieceOf]
  rw [pieces, cfg.progress_mul, Nat.sub_self]
  simp only [Option.getD_some]
  rw [List.flatMap_congr hload, flatMap_readAt, cfg.progress_mul, ← hcontent]
  simp [readAt, zeros]

end Buffer

section Run

variable (hprogress : progress ≤ cfg.progress)

include hprogress

theorem leads_pieces (s : Slot) {num : ℕ} (hnum : num ≤ progress) :
    Leads (gatherNext cfg crc32c dir nodeId progress)
      (.readPiece 0 (zeros cfg.secretASize), s)
      (.readPiece num (pieces cfg s.piece num), withoutPieces s num) := by
  induction num with
  | zero =>
    have hslot : withoutPieces s 0 = s := by simp [withoutPieces]
    have hbuffer : pieces cfg s.piece 0 = zeros cfg.secretASize := by simp [pieces]
    rw [hslot, hbuffer]
    exact .refl _
  | succ num ih =>
    have hlt : num < cfg.progress := by omega
    have hrest := ih (by omega)
    have hsame : (withoutPieces s num).piece num = s.piece num := by simp [withoutPieces]
    cases hpiece : s.piece num with
    | none =>
      have hslot : withoutPieces s (num + 1) = withoutPieces s num := by
        rw [withoutPieces, withoutPieces]
        congr 1
        funext n
        rcases Nat.lt_trichotomy n num with hn | rfl | hn
        · rw [if_pos hn, if_pos (by omega)]
        · rw [if_pos (by omega), if_neg (lt_irrefl n), hpiece]
        · rw [if_neg (by omega), if_neg (by omega)]
      refine hrest.trans (Leads.head ?_ (.refl _))
      simp only [gatherNext, Gather.step, if_pos (Nat.lt_of_succ_le hnum), hsame, hpiece, hslot,
        pieces_missing hlt hpiece]
    | some file =>
      have hslot : { withoutPieces s num with
          piece := Function.update (withoutPieces s num).piece num none } =
            withoutPieces s (num + 1) := by
        simp only [withoutPieces]
        congr 1
        funext n
        rcases Nat.lt_trichotomy n num with hn | rfl | hn
        · rw [Function.update_of_ne (by omega), if_pos hn, if_pos (by omega)]
        · rw [Function.update_self, if_pos (by omega)]
        · rw [Function.update_of_ne (by omega), if_neg (by omega), if_neg (by omega)]
      refine hrest.trans (Leads.head (t := (.removePiece num (pieces cfg s.piece (num + 1)),
        withoutPieces s num)) ?_ (Leads.head ?_ (.refl _)))
      · simp only [gatherNext, Gather.step, if_pos (Nat.lt_of_succ_le hnum), hsame, hpiece,
          pieces_succ hlt hpiece]
      · simp only [gatherNext, Gather.step, hslot]

end Run

section Report

theorem leads_report_valid (s : Slot) (bufferVec : Bytes) :
    Leads (gatherNext cfg crc32c dir nodeId progress)
      (.report bufferVec nodeSecretValid .createTime, s)
      (.openSecret bufferVec, reported nodeId nodeSecretValid s) := by
  by_cases htime : (s.time .server).isSome
  · rw [reported, if_pos htime]
    refine .head (t := (.report bufferVec nodeSecretValid .zadd, s)) ?_ ?_
    · simp only [gatherNext, Gather.step, ResultReport.Pc.step, if_pos htime, Option.map_some]
    · exact .head rfl (.head rfl (.refl _))
  · rw [reported, if_neg htime]
    refine .head (t := (.report bufferVec nodeSecretValid
      (.done ⟨500, "index error or not generated", ()⟩), s)) ?_ (.head rfl (.refl _))
    simp only [gatherNext, Gather.step, ResultReport.Pc.step, if_neg htime, Option.map_some]

theorem leads_report_invalid (s : Slot) (bufferVec : Bytes) :
    Leads (gatherNext cfg crc32c dir nodeId progress)
      (.report bufferVec nodeSecretInvalid .createTime, s) (.removeDir, rejected nodeId s) := by
  by_cases htime : (s.time .server).isSome
  · rw [rejected, if_pos htime, reported, if_pos htime]
    refine .head (t := (.report bufferVec nodeSecretInvalid .zadd, s)) ?_ ?_
    · simp only [gatherNext, Gather.step, ResultReport.Pc.step, if_pos htime, Option.map_some]
    · refine .head rfl ?_
      cases hsecret : s.secret (.server, nodeId) with
      | none =>
        have hsame : Function.update s.secret (.server, nodeId) none = s.secret := by
          rw [← hsecret, Function.update_eq_self]
        rw [hsame]
        refine .head (t := (.report bufferVec nodeSecretInvalid
          (.done ⟨500, "current secret not exist", ()⟩), _)) ?_ (.head rfl (.refl _))
        simp only [gatherNext, Gather.step, ResultReport.Pc.step, hsecret, Option.map_some]
        rfl
      | some file =>
        refine .head (t := (.report bufferVec nodeSecretInvalid .remove, _)) ?_
          (.head rfl (.head rfl (.refl _)))
        simp only [gatherNext, Gather.step, ResultReport.Pc.step, hsecret, Option.map_some]
        rfl
  · rw [rejected, if_neg htime]
    refine .head (t := (.report bufferVec nodeSecretInvalid
      (.done ⟨500, "index error or not generated", ()⟩), s)) ?_ (.head rfl (.refl _))
    simp only [gatherNext, Gather.step, ResultReport.Pc.step, if_neg htime, Option.map_some]

theorem leads_save (hdir : dir nodeId = true) (s : Slot) (bufferVec : Bytes) :
    Leads (gatherNext cfg crc32c dir nodeId progress) (.openSecret bufferVec, s)
      (.removeDir,
        { s with secret := Function.update s.secret (.client, nodeId) (some bufferVec) }) := by
  refine .head (t := (.writeSecret bufferVec,
    { s with secret := Function.update s.secret (.client, nodeId) (some []) })) ?_
    (.head ?_ (.refl _))
  · simp only [gatherNext, Gather.step, if_pos hdir]
  · simp only [gatherNext, Gather.step, Function.update_self, Option.map_some, overlay_nil,
      Function.update_idem]

end Report

/-- What `gather` takes for a secret is a waiting secret of the format. -/
theorem crc_eq_iff (hlen : bufferVec.length = cfg.secretASize) :
    crcStr (crc32c (bufferVec.take (bufferVec.length - crcLen))) =
        readAt bufferVec (bufferVec.length - crcLen) crcLen ↔
      ∃ W : WaitingSecret cfg crc32c, W.bytes = bufferVec := by
  constructor
  · intro h
    refine ⟨⟨bufferVec, hlen, ?_⟩, rfl⟩
    rw [← hlen, h, readAt, List.take_of_length_le]
    rw [List.length_drop]
    omega
  · rintro ⟨W, rfl⟩
    exact W.crc_eq

section Ends

variable (hdir : dir nodeId = true) (hprogress : progress ≤ cfg.progress) (s : Slot)

include hprogress

theorem leads_crc : Leads (gatherNext cfg crc32c dir nodeId progress)
    (.readPiece 0 (zeros cfg.secretASize), s)
    (.crc (pieces cfg s.piece progress), withoutPieces s progress) := by
  refine (leads_pieces hprogress s le_rfl).trans (Leads.head ?_ (.refl _))
  simp only [gatherNext, Gather.step, if_neg (lt_irrefl progress)]

theorem gather_rejects
    (hbuffer : ¬∃ W : WaitingSecret cfg crc32c, W.bytes = pieces cfg s.piece progress) :
    Leads (gatherNext cfg crc32c dir nodeId progress) (.readPiece 0 (zeros cfg.secretASize), s)
      (.done, rejected nodeId (withoutPieces s progress)) := by
  rw [← crc_eq_iff (pieces_length hprogress)] at hbuffer
  refine (leads_crc hprogress s).trans (Leads.head (t := (.report (pieces cfg s.piece progress)
    nodeSecretInvalid .createTime, withoutPieces s progress)) ?_ ?_)
  · simp only [gatherNext, Gather.step, ne_eq, hbuffer, not_false_eq_true, if_true]
  · exact (leads_report_invalid _ _).trans (Leads.head rfl (.refl _))

include hdir

theorem gather_accepts
    (hbuffer : ∃ W : WaitingSecret cfg crc32c, W.bytes = pieces cfg s.piece progress) :
    Leads (gatherNext cfg crc32c dir nodeId progress) (.readPiece 0 (zeros cfg.secretASize), s)
      (.done, accepted nodeId (pieces cfg s.piece progress) (withoutPieces s progress)) := by
  rw [← crc_eq_iff (pieces_length hprogress)] at hbuffer
  refine (leads_crc hprogress s).trans (Leads.head (t := (.report (pieces cfg s.piece progress)
    nodeSecretValid .createTime, withoutPieces s progress)) ?_ ?_)
  · simp only [gatherNext, Gather.step, ne_eq, hbuffer, not_true_eq_false, if_false]
  · exact ((leads_report_valid _ _).trans (leads_save hdir _ _)).trans (Leads.head rfl (.refl _))

end Ends

theorem leads_done_iff {p : Gather × Slot} {u : Slot}
    (h : Leads (gatherNext cfg crc32c dir nodeId progress) p (.done, u)) :
    Leads (gatherNext cfg crc32c dir nodeId progress) p (.done, t) ↔ t = u := by
  constructor
  · intro ht
    have heq := ht.unique h rfl rfl
    exact congrArg Prod.snd heq
  · rintro rfl
    exact h

/-- From any files of the pieces `gather` ends in one way: it saves what they make up, and reports
it VALID, exactly if that is a waiting secret. -/
theorem gather_checks (cfg : Config) (crc32c : Bytes → UInt32) {dir : ℕ → Bool} {nodeId : ℕ}
    (hdir : dir nodeId = true) {progress : ℕ} (hprogress : progress ≤ cfg.progress) (s t : Slot) :
    Leads (gatherNext cfg crc32c dir nodeId progress)
        (.readPiece 0 (zeros cfg.secretASize), s) (.done, t) ↔
      (∃ W : WaitingSecret cfg crc32c, W.bytes = pieces cfg s.piece progress) ∧
          t = accepted nodeId (pieces cfg s.piece progress) (withoutPieces s progress) ∨
        (¬∃ W : WaitingSecret cfg crc32c, W.bytes = pieces cfg s.piece progress) ∧
          t = rejected nodeId (withoutPieces s progress) := by
  by_cases hbuffer : ∃ W : WaitingSecret cfg crc32c, W.bytes = pieces cfg s.piece progress
  · rw [leads_done_iff (gather_accepts hdir hprogress s hbuffer)]
    simp only [hbuffer, true_and, not_true_eq_false, false_and, or_false]
  · rw [leads_done_iff (gather_rejects hprogress s hbuffer)]
    simp only [hbuffer, false_and, not_false_eq_true, true_and, false_or]

theorem gather_checks_whole : ∃ (W : WaitingSecret Config.release castagnoli) (s : Slot),
    (∀ n, s.piece n = some (pieceOf Config.release W.bytes n)) ∧
      Leads (gatherNext Config.release castagnoli (fun _ ↦ true) 1 Config.release.progress)
        (.readPiece 0 (zeros Config.release.secretASize), s)
        (.done, accepted 1 W.bytes (withoutPieces s Config.release.progress)) := by
  let W := generateSecret Config.release castagnoli (zeros Config.release.secretASize)
    (zeros_length _)
  let s : Slot :=
    { Slot.empty with piece := fun n ↦ some (pieceOf Config.release W.bytes n) }
  have hpieces : pieces Config.release s.piece Config.release.progress = W.bytes :=
    pieces_pieceOf W.length_eq
  refine ⟨W, s, fun _ ↦ rfl, (gather_checks Config.release castagnoli rfl le_rfl s _).mpr ?_⟩
  rw [hpieces]
  exact .inl ⟨⟨W, rfl⟩, rfl⟩

/-- A checksum that tells apart data that differ in at most four adjacent bytes, as CRC-32 does. -/
def Detects (crc32c : Bytes → UInt32) : Prop :=
  ∀ start a b rest : Bytes, a.length = b.length → a.length ≤ 4 → a ≠ b →
    crc32c (start ++ a ++ rest) ≠ crc32c (start ++ b ++ rest)

theorem castagnoli_detects : Detects castagnoli :=
  fun _ _ _ _ hlen hshort hne ↦ castagnoli_burst hlen hshort hne

/-- What may happen to the pieces of a waiting secret. -/
inductive Damage (cfg : Config) (content : Bytes) (piece : ℕ → Option Bytes) : Prop
  | data (start a b rest : Bytes) (hcontent : content = start ++ a ++ rest)
    (hpieces : pieces cfg piece cfg.progress = start ++ b ++ rest) (hlen : a.length = b.length)
    (hshort : a.length ≤ 4) (hne : a ≠ b)
    (hdata : start.length + a.length + crcLen ≤ content.length)
  | checksum (hpieces : pieces cfg piece cfg.progress ≠ content)
    (hdata : (pieces cfg piece cfg.progress).take (cfg.secretASize - crcLen) =
      content.take (cfg.secretASize - crcLen))
  | short (hlast : ∀ file, piece (cfg.progress - 1) = some file → file.length < cfg.pieceSize)

theorem crcStr_injective : Function.Injective crcStr :=
  fun _ _ h ↦ UInt32.toNat_inj.mp (decimal_injective crcLen h)

theorem window {start a : Bytes} (rest : Bytes) {n : ℕ} (h : start.length + a.length ≤ n) :
    (start ++ a ++ rest).take n = start ++ a ++ rest.take (n - (start.length + a.length)) ∧
      (start ++ a ++ rest).drop n = rest.drop (n - (start.length + a.length)) := by
  have hlen : (start ++ a).length ≤ n := by rwa [List.length_append]
  rw [List.take_append, List.drop_append, List.take_of_length_le hlen,
    List.drop_eq_nil_of_le hlen, List.length_append]
  exact ⟨rfl, List.nil_append _⟩

theorem WaitingSecret.eq_of_take {W W' : WaitingSecret cfg crc32c}
    (h : W.bytes.take (cfg.secretASize - crcLen) = W'.bytes.take (cfg.secretASize - crcLen)) :
    W.bytes = W'.bytes := by
  calc W.bytes = W.bytes.take (cfg.secretASize - crcLen) ++
        W.bytes.drop (cfg.secretASize - crcLen) := (List.take_append_drop _ _).symm
    _ = W'.bytes.take (cfg.secretASize - crcLen) ++
        W'.bytes.drop (cfg.secretASize - crcLen) := by rw [W.crc, W'.crc, h]
    _ = W'.bytes := List.take_append_drop _ _

theorem WaitingSecret.crc_eq_of_drop {W W' : WaitingSecret cfg crc32c}
    (h : W.bytes.drop (cfg.secretASize - crcLen) = W'.bytes.drop (cfg.secretASize - crcLen)) :
    crc32c (W.bytes.take (cfg.secretASize - crcLen)) =
      crc32c (W'.bytes.take (cfg.secretASize - crcLen)) := by
  apply crcStr_injective
  rw [← W.crc, ← W'.crc, h]

/-- A buffer that ends in a zero has no checksum at its end. -/
theorem WaitingSecret.ne_append_zero (W : WaitingSecret cfg crc32c) (filled : Bytes) :
    W.bytes ≠ filled ++ [0] := by
  intro h
  have hlen := congrArg List.length h
  rw [W.length_eq, List.length_append, List.length_singleton] at hlen
  have hcrc := W.crc
  rw [h, List.drop_append_of_le_length (by unfold crcLen; omega)] at hcrc
  refine not_mem_decimal crcLen
    (crc32c ((filled ++ [0]).take (cfg.secretASize - crcLen))).toNat ?_
  rw [← crcStr, ← hcrc]
  exact List.mem_append_right _ List.mem_cons_self

theorem pieces_short {piece : ℕ → Option Bytes}
    (hlast : ∀ file, piece (cfg.progress - 1) = some file → file.length < cfg.pieceSize) :
    ∃ filled, pieces cfg piece cfg.progress = filled ++ [0] := by
  obtain ⟨num, hnum⟩ := Nat.exists_eq_succ_of_ne_zero cfg.progress_pos.ne'
  have hroom : num * cfg.pieceSize + cfg.pieceSize ≤ cfg.secretASize := pieces_room (by omega)
  have hmul := cfg.progress_mul
  have hsize : 0 < cfg.pieceSize := by
    have hcrc := cfg.crcLen_le
    rcases Nat.eq_zero_or_pos cfg.pieceSize with hzero | hpos
    · rw [hzero, Nat.mul_zero] at hmul
      omega
    · exact hpos
  have hshort : ((piece num).getD []).length < cfg.pieceSize := by
    cases hpiece : piece num with
    | none => exact hsize
    | some file => exact hlast file (by rw [hnum, Nat.succ_sub_one, hpiece])
  have hread : (readAt ((piece num).getD []) 0 cfg.pieceSize).length < cfg.pieceSize :=
    (List.length_take_le' _ _).trans_lt hshort
  obtain ⟨k, hk⟩ := Nat.exists_eq_succ_of_ne_zero (Nat.sub_pos_of_lt hread).ne'
  refine ⟨(List.range num).flatMap (fun n ↦ load cfg.pieceSize ((piece n).getD []) 0) ++
    (readAt ((piece num).getD []) 0 cfg.pieceSize ++ zeros k), ?_⟩
  rw [hnum, Nat.succ_eq_add_one] at hmul ⊢
  rw [pieces, hmul, Nat.sub_self, List.range_succ, List.flatMap_append, List.flatMap_singleton,
    load_eq_append, hk]
  simp only [zeros, List.replicate_zero, List.append_nil, List.append_assoc,
    List.replicate_succ']

theorem Damage.not_waitingSecret {W : WaitingSecret cfg crc32c} {piece : ℕ → Option Bytes}
    (h : Damage cfg W.bytes piece) (hcrc : Detects crc32c) :
    ¬∃ W' : WaitingSecret cfg crc32c, W'.bytes = pieces cfg piece cfg.progress := by
  rintro ⟨W', hW'⟩
  cases h with
  | data start a b rest hcontent hpieces hlen hshort hne hdata =>
    rw [W.length_eq] at hdata
    have hroom : start.length + a.length ≤ cfg.secretASize - crcLen := by omega
    obtain ⟨htake, hdrop⟩ := window rest hroom
    have hroom' : start.length + b.length ≤ cfg.secretASize - crcLen := hlen ▸ hroom
    obtain ⟨htake', hdrop'⟩ := window rest hroom'
    have hequal : crc32c (W.bytes.take _) = crc32c (W'.bytes.take _) :=
      WaitingSecret.crc_eq_of_drop (by rw [hcontent, hW', hpieces, hdrop, hdrop', hlen])
    rw [hcontent, hW', hpieces, htake, htake', hlen] at hequal
    exact hcrc _ _ _ _ hlen hshort hne hequal
  | checksum hpieces hdata =>
    refine hpieces (hW' ▸ WaitingSecret.eq_of_take ?_)
    rw [hW', hdata]
  | short hlast =>
    obtain ⟨filled, hfilled⟩ := pieces_short hlast
    exact W'.ne_append_zero filled (hW'.trans hfilled)

/-- `gather` takes no damaged secret: the client's file stays as it is, and the server learns that
the secret is not valid and throws its own away. -/
theorem gather_detects {crc32c : Bytes → UInt32} (hcrc : Detects crc32c)
    (W : WaitingSecret cfg crc32c) {dir : ℕ → Bool} {nodeId : ℕ} {s t : Slot}
    (hdamage : Damage cfg W.bytes s.piece) (htime : (s.time .server).isSome)
    (hrun : Leads (gatherNext cfg crc32c dir nodeId cfg.progress)
      (.readPiece 0 (zeros cfg.secretASize), s) (.done, t)) :
    t.valid nodeId = some nodeSecretInvalid ∧ t.secret (.server, nodeId) = none ∧
      ∀ node, t.secret (.client, node) = s.secret (.client, node) := by
  obtain rfl := (leads_done_iff (gather_rejects le_rfl s (hdamage.not_waitingSecret hcrc))).mp hrun
  have htime' : ((withoutPieces s cfg.progress).time .server).isSome := htime
  rw [rejected, if_pos htime', reported, if_pos htime']
  refine ⟨Function.update_self _ _ _, Function.update_self _ _ _, fun node ↦ ?_⟩
  have hne : ((.client, node) : Source × ℕ) ≠ (.server, nodeId) := by simp
  exact Function.update_of_ne hne none s.secret

/-- A flipped bit in the first byte is noticed. -/
theorem gather_detects_first : ∃ (W : WaitingSecret Config.release castagnoli) (s t : Slot)
    (c : UInt8) (rest : Bytes), W.bytes = c :: rest ∧
      (∀ n, s.piece n = some (pieceOf Config.release ((c ^^^ 1) :: rest) n)) ∧
      Leads (gatherNext Config.release castagnoli (fun _ ↦ true) 1 Config.release.progress)
        (.readPiece 0 (zeros Config.release.secretASize), s) (.done, t) ∧
      t.valid 1 = some nodeSecretInvalid ∧ t.secret (.server, 1) = none ∧
      ∀ node, t.secret (.client, node) = s.secret (.client, node) := by
  let W := generateSecret Config.release castagnoli (zeros Config.release.secretASize)
    (zeros_length _)
  have hlen := W.length_eq
  obtain ⟨c, rest, hbytes⟩ : ∃ c rest, W.bytes = c :: rest := by
    apply List.exists_cons_of_ne_nil
    intro hnil
    rw [hnil] at hlen
    cases hlen
  let content := (c ^^^ 1) :: rest
  have hcontent : content.length = Config.release.secretASize := by
    rw [← hlen, hbytes]
    rfl
  let s : Slot :=
    { Slot.empty with
      time := fun _ ↦ some 1700000000
      piece := fun n ↦ some (pieceOf Config.release content n) }
  have hdamage : Damage Config.release W.bytes s.piece := by
    refine .data [] [c] [c ^^^ 1] rest hbytes (pieces_pieceOf hcontent) rfl ?_ ?_ ?_
    · exact Nat.le_of_lt (by simp)
    · intro heq
      have hflip : c ^^^ 1 = c := (List.cons.inj heq).1.symm
      have hzero : (1 : UInt8) = 0 := (UInt8.xor_right_inj c).mp (hflip.trans UInt8.xor_zero.symm)
      cases hzero
    · rw [hlen]
      exact Nat.le_of_lt (by simp [crcLen, Config.release])
  have hrun : Leads (gatherNext Config.release castagnoli (fun _ ↦ true) 1 _) _ _ :=
    gather_rejects le_rfl s (hdamage.not_waitingSecret castagnoli_detects)
  exact ⟨W, s, _, c, rest, hbytes, fun _ ↦ rfl, hrun,
    gather_detects castagnoli_detects W hdamage rfl hrun⟩

end ShannonNet.Client
