import ShannonNet.Client.Decrypt

namespace ShannonNet.Transfer

open Library.Buffer Library.Bitset Client Server Utils

variable {cfg : Config} {node : ℕ} {content : Bytes} {crc32c : Bytes → UInt32} {dir : ℕ → Bool}

def NotReported (node : ℕ) (s : Slot) : Prop :=
  s.valid node ≠ some nodeSecretValid ∧ s.secret (.client, node) = none

def Reported (node : ℕ) (file : Option Bytes) (s : Slot) : Prop :=
  s.valid node = some nodeSecretValid ∧ s.secret (.client, node) = file

def ReportAt (node : ℕ) (s : Slot) : ResultReport.Pc → Prop
  | .createTime => NotReported node s
  | .zadd => NotReported node s
  | .done res => res.statusCode = 200 ∧ Reported node none s
  | _ => False

/-- The stores around `gather` when the pieces are those of `content`. -/
def GatherAt (cfg : Config) (node : ℕ) (content : Bytes) (s : Slot) : Gather → Prop
  | .readPiece num bufferVec => num ≤ cfg.progress ∧ bufferVec = gathered cfg content num ∧
    (∀ n, num ≤ n → n < cfg.progress → s.piece n = some (pieceOf cfg content n)) ∧
    NotReported node s
  | .removePiece num bufferVec => num < cfg.progress ∧ bufferVec = gathered cfg content (num + 1) ∧
    (∀ n, num < n → n < cfg.progress → s.piece n = some (pieceOf cfg content n)) ∧
    NotReported node s
  | .crc bufferVec => bufferVec = content ∧ NotReported node s
  | .report bufferVec isValid pc =>
    bufferVec = content ∧ isValid = nodeSecretValid ∧ ReportAt node s pc
  | .openSecret bufferVec => bufferVec = content ∧ Reported node none s
  | .writeSecret bufferVec => bufferVec = content ∧ Reported node (some []) s
  | .removeDir => Reported node (some content) s
  | .done => Reported node (some content) s

theorem GatherAt.frame {s s' : Slot} {loc : Gather} (h : GatherAt cfg node content s loc)
    (hpiece : s'.piece = s.piece) (hvalid : s'.valid node = s.valid node)
    (hsecret : s'.secret (.client, node) = s.secret (.client, node)) :
    GatherAt cfg node content s' loc := by
  unfold GatherAt ReportAt NotReported Reported at *
  simpa only [hpiece, hvalid, hsecret] using h

/-- `gather` has reported VALID and has not written the client's file yet. -/
def Saving : Gather → Prop
  | .report _ _ (.done _) => True
  | .openSecret _ => True
  | .writeSecret _ => True
  | _ => False

theorem GatherAt.reported {s : Slot} {loc : Gather} (h : GatherAt cfg node content s loc)
    (hvalid : s.valid node = some nodeSecretValid) :
    s.secret (.client, node) = some content ∨ Saving loc := by
  cases loc with
  | readPiece num bufferVec => exact absurd hvalid h.2.2.2.1
  | removePiece num bufferVec => exact absurd hvalid h.2.2.2.1
  | crc bufferVec => exact absurd hvalid h.2.1
  | report bufferVec isValid pc =>
    have hreport := h.2.2
    cases pc with
    | createTime => exact absurd hvalid hreport.1
    | zadd => exact absurd hvalid hreport.1
    | done res => exact .inr trivial
    | _ => exact hreport.elim
  | openSecret bufferVec => exact .inr trivial
  | writeSecret bufferVec => exact .inr trivial
  | removeDir => exact .inl h.2
  | done => exact .inl h.2

structure GatherFrame (node : ℕ) (s s' : Slot) : Prop where
  time : s'.time = s.time
  count : s'.count = s.count
  running : s'.running = s.running
  waiting : s'.waiting = s.waiting
  secret : s'.secret (.server, node) = s.secret (.server, node)
  copy : s'.secret (.client, node) = s.secret (.client, node) ∨ s.valid node = some nodeSecretValid
  valid : s'.valid node = s.valid node ∨ s'.valid node = some nodeSecretValid

theorem GatherFrame.of_piece {s s' : Slot} (h : s' = { s with piece := s'.piece }) :
    GatherFrame node s s' := by
  rw [h]
  exact ⟨rfl, rfl, rfl, rfl, rfl, .inl rfl, .inl rfl⟩

theorem gather_step (W : WaitingSecret cfg crc32c) {loc loc' : Gather} {s s' : Slot}
    (h : GatherAt cfg node W.bytes s loc) (htime : (s.time .server).isSome) (hdir : dir node = true)
    (hstep : loc.step cfg crc32c dir node cfg.progress s = some (loc', s')) :
    GatherAt cfg node W.bytes s' loc' ∧ GatherFrame node s s' := by
  cases loc with
  | readPiece num bufferVec =>
    obtain ⟨hnum, rfl, hpiece, hreport⟩ := h
    simp only [Gather.step] at hstep
    split_ifs at hstep with hlt
    · rw [hpiece num le_rfl hlt] at hstep
      cases hstep
      refine ⟨⟨hlt, gathered_succ W.length_eq hlt, fun n hn ↦ hpiece n hn.le, hreport⟩, ?_⟩
      exact .of_piece rfl
    · cases hstep
      refine ⟨⟨?_, hreport⟩, .of_piece rfl⟩
      rw [show num = cfg.progress by omega, gathered_all W.length_eq]
  | removePiece num bufferVec =>
    obtain ⟨hnum, rfl, hpiece, hreport⟩ := h
    cases hstep
    refine ⟨⟨hnum, rfl, ?_, hreport⟩, .of_piece rfl⟩
    intro n hn hlt
    dsimp only
    rw [Function.update_of_ne (by omega)]
    exact hpiece n hn hlt
  | crc bufferVec =>
    obtain ⟨rfl, hreport⟩ := h
    simp only [Gather.step] at hstep
    rw [if_neg (not_ne_iff.mpr W.crc_eq)] at hstep
    cases hstep
    exact ⟨⟨rfl, rfl, hreport⟩, .of_piece rfl⟩
  | report bufferVec isValid pc =>
    obtain ⟨rfl, rfl, hreport⟩ := h
    cases pc with
    | createTime =>
      simp only [Gather.step, ResultReport.Pc.step, if_pos htime] at hstep
      cases hstep
      exact ⟨⟨rfl, rfl, hreport⟩, .of_piece rfl⟩
    | zadd =>
      simp only [Gather.step, ResultReport.Pc.step, if_true] at hstep
      cases hstep
      have hvalid := Function.update_self node (some nodeSecretValid) s.valid
      exact ⟨⟨rfl, rfl, rfl, hvalid, hreport.2⟩, ⟨rfl, rfl, rfl, rfl, rfl, .inl rfl, .inr hvalid⟩⟩
    | done res =>
      simp only [Gather.step, if_true] at hstep
      cases hstep
      exact ⟨⟨rfl, hreport.2⟩, .of_piece rfl⟩
    | _ => exact hreport.elim
  | openSecret bufferVec =>
    obtain ⟨rfl, hreport⟩ := h
    simp only [Gather.step, if_pos hdir] at hstep
    cases hstep
    refine ⟨⟨rfl, hreport.1, Function.update_self _ _ _⟩,
      ⟨rfl, rfl, rfl, rfl, ?_, .inr hreport.1, .inl rfl⟩⟩
    simp
  | writeSecret bufferVec =>
    obtain ⟨rfl, hreport⟩ := h
    simp only [Gather.step, hreport.2, Option.map_some, overlay_nil] at hstep
    cases hstep
    refine ⟨⟨hreport.1, Function.update_self _ _ _⟩,
      ⟨rfl, rfl, rfl, rfl, ?_, .inr hreport.1, .inl rfl⟩⟩
    simp
  | removeDir =>
    cases hstep
    exact ⟨h, .of_piece rfl⟩
  | done => cases hstep

end ShannonNet.Transfer
