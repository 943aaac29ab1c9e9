import ShannonNet.Server.Sequence

namespace ShannonNet.Server

open Library.Bitset Library.Buffer Library.Runs Utils

variable {cfg : Config}

section Passes

variable {f : Faults}

theorem nodeIdOf_pos_iff {nodeIdArg : Field UInt16} : nodeIdOf nodeIdArg > 0 ↔
    ∃ nodeId, nodeIdArg.read (some clientNode) = some nodeId ∧ nodeId ≠ 0 := by
  unfold nodeIdOf
  cases nodeIdArg.read (some clientNode) with
  | none => simp
  | some nodeId =>
    have hzero : nodeId.toNat = 0 ↔ nodeId = 0 := UInt16.toNat_inj (b := 0)
    simp [Nat.pos_iff_ne_zero, hzero]

theorem indexOf_ne_iff {indexArg : Field Str} : indexOf indexArg ≠ [] ↔
    ∃ index, indexArg.read none = some index ∧ index ≠ [] := by
  unfold indexOf
  cases indexArg.read none with
  | none => simp
  | some index => simp

theorem prints_of_some {α : Type} {field : Option α} {v : α} (h : field = some v) :
    f.prints field = true := by
  simp [Faults.prints, h]

theorem GenSecretPostDto.passes_iff {body : GenSecretPostDto} : body.Passes f ↔
    ∃ nodeId, body.nodeIdArg.read (some clientNode) = some nodeId ∧ nodeId ≠ 0 := by
  rw [GenSecretPostDto.Passes, nodeIdOf_pos_iff]
  constructor
  · exact And.right
  · rintro ⟨nodeId, h, hne⟩
    exact ⟨prints_of_some h, nodeId, h, hne⟩

theorem GetDataPostDto.passes_iff {body : GetDataPostDto} : body.Passes f ↔
    (∃ nodeId, body.nodeIdArg.read (some clientNode) = some nodeId ∧ nodeId ≠ 0) ∧
      (∃ index, body.indexArg.read none = some index ∧ index ≠ []) ∧
      f.prints (body.progressArg.read none) := by
  rw [GetDataPostDto.Passes, nodeIdOf_pos_iff, indexOf_ne_iff]
  constructor
  · rintro ⟨-, hprogress, hnode, hindex, -⟩
    exact ⟨hnode, hindex, hprogress⟩
  · rintro ⟨⟨nodeId, h, hne⟩, hindex, hprogress⟩
    exact ⟨prints_of_some h, hprogress, ⟨nodeId, h, hne⟩, hindex, Nat.zero_le _⟩

theorem ResultReportPostDto.passes_iff {body : ResultReportPostDto} : body.Passes f ↔
    (∃ nodeId, body.nodeIdArg.read (some clientNode) = some nodeId ∧ nodeId ≠ 0) ∧
      (∃ index, body.indexArg.read none = some index ∧ index ≠ []) ∧
      f.prints (body.isValidArg.read (some (UInt16.ofNat nodeSecretInvalid))) := by
  rw [ResultReportPostDto.Passes, nodeIdOf_pos_iff, indexOf_ne_iff]
  constructor
  · rintro ⟨-, hvalid, hnode, hindex⟩
    exact ⟨hnode, hindex, hvalid⟩
  · rintro ⟨⟨nodeId, h, hne⟩, hindex, hvalid⟩
    exact ⟨prints_of_some h, hvalid, ⟨nodeId, h, hne⟩, hindex⟩

end Passes

theorem write_status {f : Faults} {c : Call} {α σ : Type} {s t : σ} {next : σ → Result α × σ}
    (h : ∀ u, ((next u).1.status f).isSome) : ((f.write c s t next).1.status f).isSome := by
  cases hc : f.thrown c with
  | none =>
    rw [Faults.write_returns hc]
    exact h t
  | some executed =>
    rw [Faults.write_throws hc]
    rfl

theorem answers_genSecret {f : Faults} {w : World} {body : GenSecretPostDto}
    {randomStr : ℕ → Str} {randomNum : ℕ} :
    (∃ fuel code, (handle f w (.genSecret body fuel randomStr randomNum : Post cfg)).1 =
      some code) ↔ body.Passes f ∧ ∃ n, Free w (randomStr n) ∨ f.throws (.draw n) := by
  constructor
  · rintro ⟨fuel, code, h⟩
    by_cases hpass : body.Passes f
    · refine ⟨hpass, exists_generateIndex.mp ⟨fuel, fun hx ↦ ?_⟩⟩
      rw [handle, genSecret_loops hpass hx] at h
      cases h
    · rw [handle, genSecret_aborts hpass] at h
      cases h
  · rintro ⟨hpass, hdraw⟩
    obtain ⟨fuel, hx⟩ := exists_generateIndex.mpr hdraw
    refine ⟨fuel, Option.isSome_iff_exists.mp ?_⟩
    cases hy : generateIndex f w randomStr fuel 0 with
    | looping => exact absurd hy hx
    | thrown =>
      rw [handle, genSecret_throws hpass hy]
      rfl
    | found x =>
      rw [handle, genSecret_answers hpass hy]
      refine write_status fun u ↦ ?_
      split_ifs
      · exact write_status fun _ ↦ rfl
      · exact write_status fun _ ↦ rfl
      · rfl

theorem move_status {f : Faults} {nodeId : ℕ} {data : List SecretDto} {s : Slot} :
    ((move cfg f nodeId data s).1.status f).isSome := by
  by_cases h : Copies f nodeId s
  · rw [move_copies h]
    exact write_status fun _ ↦ rfl
  · have hrefuses : Refuses f s (move cfg f nodeId data s) := move_refuses h
    obtain ⟨-, code, hcode, -⟩ := hrefuses
    rw [hcode]
    rfl

theorem getDataSlot_status {f : Faults} {r : GetData.Request cfg} {s : Slot} :
    ((getDataSlot f r s).1.status f).isSome := by
  by_cases hpulls : Pulls f r s
  · obtain ⟨data, hdata⟩ := getDataSlot_pulls hpulls
    rw [hdata]
    refine write_status fun t ↦ ?_
    split_ifs
    · exact move_status
    · rfl
  · obtain ⟨-, code, hcode, -⟩ := getDataSlot_refuses hpulls
    rw [hcode]
    rfl

theorem resultReportSlot_status {f : Faults} {nodeId isValid : ℕ} {s : Slot} :
    ((resultReportSlot f nodeId isValid s).1.status f).isSome := by
  rw [resultReportSlot]
  split
  · rfl
  split
  · rfl
  split
  · exact write_status fun _ ↦ rfl
  · refine write_status fun u ↦ ?_
    split_ifs <;> rfl

theorem answers_getData {f : Faults} {w : World} {body : GetDataPostDto}
    {coins : ℕ → Coins cfg} :
    (∃ code, (handle f w (.getData body coins)).1 = some code) ↔ body.Passes f := by
  by_cases h : body.Passes f
  · rw [handle, getData_answers h]
    exact iff_of_true (Option.isSome_iff_exists.mp getDataSlot_status) h
  · simp [handle, getData_aborts h, Result.status, h]

theorem answers_resultReport {f : Faults} {w : World} {body : ResultReportPostDto} :
    (∃ code, (handle f w (.resultReport body : Post cfg)).1 = some code) ↔ body.Passes f := by
  by_cases h : body.Passes f
  · rw [handle, resultReport_answers h]
    exact iff_of_true (Option.isSome_iff_exists.mp resultReportSlot_status) h
  · simp [handle, resultReport_aborts h, Result.status, h]

/-- In every state a request is answered if and only if its node is neither zero nor null, its
index is neither missing nor empty, its null fields can be logged and, for `genSecret`, some string
drawn is neither locked nor generated, or Redis throws for it. -/
theorem answered_iff (f : Faults) (w : World) :
    (∀ (body : GenSecretPostDto) (randomStr : ℕ → Str) (randomNum : ℕ),
      (∃ fuel code, (handle f w (.genSecret body fuel randomStr randomNum : Post cfg)).1 =
        some code) ↔
      (∃ nodeId, body.nodeIdArg.read (some clientNode) = some nodeId ∧ nodeId ≠ 0) ∧
        ∃ n, Free w (randomStr n) ∨ f.throws (.draw n)) ∧
    (∀ (body : GetDataPostDto) (coins : ℕ → Coins cfg),
      (∃ code, (handle f w (.getData body coins)).1 = some code) ↔
      (∃ nodeId, body.nodeIdArg.read (some clientNode) = some nodeId ∧ nodeId ≠ 0) ∧
        (∃ index, body.indexArg.read none = some index ∧ index ≠ []) ∧
        f.prints (body.progressArg.read none)) ∧
    ∀ body : ResultReportPostDto,
      (∃ code, (handle f w (.resultReport body : Post cfg)).1 = some code) ↔
      (∃ nodeId, body.nodeIdArg.read (some clientNode) = some nodeId ∧ nodeId ≠ 0) ∧
        (∃ index, body.indexArg.read none = some index ∧ index ≠ []) ∧
        f.prints (body.isValidArg.read (some (UInt16.ofNat nodeSecretInvalid))) := by
  refine ⟨?_, ?_, ?_⟩
  · intro body randomStr randomNum
    rw [answers_genSecret, GenSecretPostDto.passes_iff]
  · intro body coins
    rw [answers_getData, GetDataPostDto.passes_iff]
  · intro body
    rw [answers_resultReport, ResultReportPostDto.passes_iff]

theorem node_zero_aborts :
    let w : World := ⟨fun _ ↦ Slot.empty, []⟩
    ¬∃ code, (handle (Faults.success Config.release) w (.getData ⟨.value 0, .value ['a'], .value 0⟩
      fun _ ↦ Coins.release)).1 = some code := by
  intro w
  rw [handle, getData_aborts (by simp [GetDataPostDto.Passes, nodeIdOf, Field.read])]
  simp [Result.status]

section Move

variable {f : Faults}

/-- The request gets through the body of `move`. -/
structure Moves (f : Faults) (coins : ℕ → Coins cfg) (body : GetDataPostDto) (s : Slot) :
    Prop where
  passes : body.Passes f
  pulls : Pulls f (body.request passes coins) s
  zincrby : f.thrown .zincrby = none
  last : cfg.progress ≤ (s.count .server).getD 0 + 1
  copies : Copies f (nodeIdOf body.nodeIdArg) s
  zadd : f.thrown .zadd = none

theorem move_waiting {nodeId : ℕ} {data : List SecretDto} {s : Slot}
    (h : ¬(Copies f nodeId s ∧ f.thrown .zadd = none ∧ f.waitingRemoved)) :
    (move cfg f nodeId data s).2.waiting = s.waiting := by
  by_cases hcopies : Copies f nodeId s
  · rw [move_copies hcopies]
    refine Faults.write_state (P := fun t : Slot ↦ t.waiting = s.waiting) rfl rfl fun hzadd ↦ ?_
    have hremoved : ¬f.waitingRemoved = true := fun hremoved ↦ h ⟨hcopies, hzadd, hremoved⟩
    exact if_neg hremoved
  · rw [(move_refuses hcopies).1]

theorem getData_waiting {w : World} {body : GetDataPostDto} {coins : ℕ → Coins cfg}
    (hmoves : ¬(Moves f coins body (w.slot (indexOf body.indexArg)) ∧ f.waitingRemoved)) :
    ((getData cfg f coins body w).2.slot (indexOf body.indexArg)).waiting =
      (w.slot (indexOf body.indexArg)).waiting := by
  by_cases hpass : body.Passes f
  · rw [getData_answers hpass, World.setSlot_slot, if_pos rfl]
    by_cases hpulls : Pulls f (body.request hpass coins) (w.slot (indexOf body.indexArg))
    · obtain ⟨data, hdata⟩ := getDataSlot_pulls hpulls
      rw [hdata]
      refine Faults.write_state (P := fun t : Slot ↦
        t.waiting = (w.slot (indexOf body.indexArg)).waiting) rfl rfl fun hzincrby ↦ ?_
      split_ifs with hlast
      · refine move_waiting ?_
        rintro ⟨hcopies, hzadd, hremoved⟩
        exact hmoves ⟨⟨hpass, hpulls, hzincrby, hlast,
          ⟨hcopies.isValid, hcopies.valid, hcopies.moveBuffer⟩, hzadd⟩, hremoved⟩
      · rfl
    · rw [(getDataSlot_refuses hpulls).1]
  · rw [getData_aborts hpass]

theorem getData_moves {w : World} {body : GetDataPostDto} {coins : ℕ → Coins cfg} {W : Bytes}
    (hmoves : Moves f coins body (w.slot (indexOf body.indexArg)))
    (hW : (w.slot (indexOf body.indexArg)).waiting = some W) :
    let s' := (getData cfg f coins body w).2.slot (indexOf body.indexArg)
    s'.waiting = (if f.waitingRemoved then none else some W) ∧
      s'.secret (.server, nodeIdOf body.nodeIdArg) =
        if f.targetOpened then some ((moveBufferVec cfg f W).take f.written) else none := by
  obtain ⟨data, hdata⟩ := getDataSlot_pulls hmoves.pulls
  have hcopies : Copies f (nodeIdOf body.nodeIdArg) (counted (w.slot (indexOf body.indexArg))) :=
    ⟨hmoves.copies.isValid, hmoves.copies.valid, hmoves.copies.moveBuffer⟩
  intro s'
  have hs' : s' = (move cfg f (nodeIdOf body.nodeIdArg) data
      (counted (w.slot (indexOf body.indexArg)))).2 := by
    simp only [s']
    rw [getData_answers hmoves.passes, World.setSlot_slot, if_pos rfl, hdata,
      Faults.write_returns hmoves.zincrby, if_pos hmoves.last]
    rfl
  rw [hs', move_moves hcopies hmoves.zadd]
  refine ⟨congrArg (if f.waitingRemoved then none else ·) hW, ?_⟩
  have hload : (counted (w.slot (indexOf body.indexArg))).waiting.getD [] = W :=
    congrArg (Option.getD · []) hW
  simp only [copied, hload]
  split_ifs
  · exact Function.update_self _ _ _
  · exact hmoves.pulls.secret

/-- The bytes of the waiting file that `move` does not read are zero, as its buffer is. -/
def ReadBack (f : Faults) (W : Bytes) : Prop :=
  ∀ b ∈ W.drop (if f.moveOpened then f.moveRead else 0), b = 0

theorem take_moveBufferVec_iff {W : Bytes} : (moveBufferVec cfg f W).take f.written = W ↔
    W.length = min f.written cfg.secretASize ∧ ReadBack f W := by
  have hread : (if f.moveOpened then W.take f.moveRead else []) =
      W.take (if f.moveOpened then f.moveRead else 0) := by
    split_ifs
    · rfl
    · exact List.take_zero.symm
  rw [moveBufferVec, hread, take_load_take_eq_iff, ReadBack]

/-- A request that takes the waiting file away keeps its bytes under the secrets if and only if it
does not get through the body of `move`, the waiting file cannot be removed, or `move` reads all of
it that is not zero, the target opens and as many bytes reach it as the waiting file has. -/
theorem move_keeps_iff (f : Faults) (coins : ℕ → Coins cfg) (body : GetDataPostDto) (w : World) :
    let s := w.slot (indexOf body.indexArg)
    let s' := (getData cfg f coins body w).2.slot (indexOf body.indexArg)
    (∀ W, s.waiting = some W → s'.waiting = none →
      s'.secret (.server, nodeIdOf body.nodeIdArg) = some W) ↔
      ∀ W, s.waiting = some W → Moves f coins body s → f.waitingRemoved →
        f.targetOpened ∧ W.length = min f.written cfg.secretASize ∧ ReadBack f W := by
  intro s s'
  constructor
  · intro h W hW hmoves hremoved
    obtain ⟨hwaiting, hsecret⟩ := getData_moves hmoves hW
    have hkept := h W hW (hwaiting.trans (if_pos hremoved))
    rw [hsecret] at hkept
    split_ifs at hkept with htarget
    exact ⟨htarget, take_moveBufferVec_iff.mp (Option.some.inj hkept)⟩
  · intro h W hW hgone
    by_cases hmoves : Moves f coins body s ∧ f.waitingRemoved
    · obtain ⟨htarget, hread⟩ := h W hW hmoves.1 hmoves.2
      rw [(getData_moves hmoves.1 hW).2, if_pos htarget, take_moveBufferVec_iff.mpr hread]
    · have hkept : s'.waiting = s.waiting := getData_waiting hmoves
      rw [hgone, hW] at hkept
      cases hkept

theorem getData_loses {w : World} {body : GetDataPostDto} {coins : ℕ → Coins cfg} {W : Bytes}
    (hmoves : Moves f coins body (w.slot (indexOf body.indexArg)))
    (hW : (w.slot (indexOf body.indexArg)).waiting = some W) (hremoved : f.waitingRemoved = true)
    (htarget : f.targetOpened = false) :
    let s' := (getData cfg f coins body w).2.slot (indexOf body.indexArg)
    s'.waiting = none ∧ s'.secret (.server, nodeIdOf body.nodeIdArg) = none := by
  obtain ⟨hwaiting, hsecret⟩ := getData_moves hmoves hW
  rw [if_pos hremoved] at hwaiting
  rw [htarget, if_neg (by simp)] at hsecret
  exact ⟨hwaiting, hsecret⟩

def lastPiece : World :=
  ⟨fun _ ↦ { Slot.empty with
    time := fun _ ↦ some 1
    count := fun _ ↦ some 1023
    running := fun _ ↦ some (zeros Config.release.secretFileSize)
    waiting := some Sequence.exampleSecret }, []⟩

def nodeTwo : GetDataPostDto := ⟨.value 2, .value ['a'], .value 0⟩

/-- The last piece of a secret goes to a node that has no directory. -/
theorem secret_lost :
    let f := { Faults.success Config.release with targetOpened := false }
    let x := indexOf nodeTwo.indexArg
    let s' := (getData Config.release f (fun _ ↦ Coins.release) nodeTwo lastPiece).2.slot x
    (lastPiece.slot x).waiting = some Sequence.exampleSecret ∧ s'.waiting = none ∧
      s'.secret (.server, nodeIdOf nodeTwo.nodeIdArg) = none := by
  intro f
  have hmoves :
      Moves f (fun _ ↦ Coins.release) nodeTwo (lastPiece.slot (indexOf nodeTwo.indexArg)) :=
    { passes := ⟨rfl, rfl, by decide, by decide, Nat.zero_le _⟩
      pulls :=
        { createTime := rfl
          time := by simp [lastPiece]
          running := ⟨_, rfl, by rw [zeros_length]⟩
          waiting := by simp [lastPiece]
          secret := rfl
          secretA := rfl
          opened := rfl
          progress := Config.release.progress_pos
          encrypt := rfl }
      zincrby := rfl
      last := by decide
      copies := ⟨rfl, rfl, rfl⟩
      zadd := rfl }
  exact ⟨rfl, getData_loses hmoves rfl rfl rfl⟩

end Move

section Atomic

/-- The handler has written before the exit that refuses the request: a check, an exception, or
the exception of a command that was executed. -/
def HalfDone (f : Faults) (w : World) : Post cfg → Prop
  | .genSecret body fuel randomStr _ =>
    body.Passes f ∧ (∃ x, generateIndex f w randomStr fuel 0 = .found x) ∧ f.setOk ∧
      (f.thrown .set = some true ∨ f.thrown .set = none ∧
        (f.throws .lpush ∨ ¬f.pushOk ∨ f.throws .response))
  | .getData body coins =>
    let s := w.slot (indexOf body.indexArg)
    ∃ h : body.Passes f, Pulls f (body.request h coins) s ∧
      (f.thrown .zincrby = some true ∨ f.thrown .zincrby = none ∧
        (f.throws .response ∨ cfg.progress ≤ (s.count .server).getD 0 + 1 ∧
          ¬(Copies f (nodeIdOf body.nodeIdArg) s ∧ f.thrown .zadd = none)))
  | .resultReport body =>
    let nodeId := nodeIdOf body.nodeIdArg
    let s := w.slot (indexOf body.indexArg)
    body.Passes f ∧ f.thrown .createTime = none ∧ s.time .server ≠ none ∧
      if isValidOf body.isValidArg = nodeSecretValid then
        s.valid nodeId ≠ some nodeSecretValid ∧
          (f.thrown .zadd = some true ∨ f.thrown .zadd = none ∧ f.throws .response)
      else if f.thrown .zadd = none ∧ s.secret (.server, nodeId) ≠ none ∧ f.secretRemoved then
        f.throws .response
      else s.valid nodeId ≠ some nodeSecretInvalid ∧ f.thrown .zadd ≠ some false

/-- An answer other than 200 comes with the world as it was. -/
def Atomic {σ : Type} (r : Option ℕ × σ) (s : σ) : Prop :=
  ∀ code, r.1 = some code → code ≠ 200 → r.2 = s

theorem atomic_of_ok {σ : Type} {s t : σ} : Atomic (some 200, t) s := by
  rintro code ⟨⟩ hne
  exact absurd rfl hne

theorem atomic_iff_of_ne {σ : Type} {s t : σ} {code : ℕ} (h : code ≠ 200) :
    Atomic (some code, t) s ↔ t = s :=
  ⟨fun hatomic ↦ hatomic code rfl h, fun heq _ _ _ ↦ heq⟩

section Response

variable {f : Faults} {α σ : Type} {s t : σ}

theorem atomic_thrown : Atomic ((Result.thrown : Result α).status f, t) s ↔ t = s :=
  atomic_iff_of_ne (by decide)

theorem atomic_refused {res : Response α} (h : res.statusCode ≠ 200) :
    Atomic ((Result.response res).status f, t) s ↔ t = s := by
  apply atomic_iff_of_ne
  split_ifs
  · decide
  · exact h

theorem atomic_success {res : Response α} (h : res.statusCode = 200) :
    Atomic ((Result.response res).status f, t) s ↔ (f.throws .response → t = s) := by
  by_cases hthrows : f.throws .response
  · rw [Result.status, if_pos hthrows, atomic_iff_of_ne (by decide)]
    exact (imp_iff_right hthrows).symm
  · rw [Result.status, if_neg hthrows, h]
    exact iff_of_true atomic_of_ok fun h ↦ absurd h hthrows

/-- A call that throws refuses the request. -/
theorem atomic_write {c : Call} {u : σ} {next : σ → Result α × σ} :
    Atomic ((f.write c u t next).1.status f, (f.write c u t next).2) s ↔
      (f.thrown c = some false → u = s) ∧ (f.thrown c = some true → t = s) ∧
        (f.thrown c = none → Atomic ((next t).1.status f, (next t).2) s) := by
  cases hc : f.thrown c with
  | none => simp [Faults.write_returns hc]
  | some executed =>
    rw [Faults.write_throws hc, atomic_thrown]
    cases executed <;> simp

end Response

theorem genSecret_atomic_iff {f : Faults} {w : World} {body : GenSecretPostDto} {fuel : ℕ}
    {randomStr : ℕ → Str} {randomNum : ℕ} :
    Atomic (handle f w (.genSecret body fuel randomStr randomNum : Post cfg)) w ↔
      ¬HalfDone f w (.genSecret body fuel randomStr randomNum : Post cfg) := by
  simp only [handle, HalfDone]
  by_cases hpass : body.Passes f
  · cases hx : generateIndex f w randomStr fuel 0 with
    | looping =>
      rw [genSecret_loops hpass hx]
      simp [Atomic, Result.status]
    | thrown =>
      rw [genSecret_throws hpass hx]
      simp [Atomic]
    | found x =>
      have hlock : w.setSlot x { w.slot x with lock := some ['1'] } ≠ w := by
        intro h
        have hslot := congrArg Slot.lock (World.setSlot_eq_self_iff.mp h)
        simp [(generateIndex_free hx).1] at hslot
      rw [genSecret_answers hpass hx, atomic_write]
      generalize hlocked : w.setSlot x { w.slot x with lock := some ['1'] } = locked at hlock
      cases hsetOk : f.setOk with
      | false => simp [atomic_refused]
      | true =>
        have hpush (msg : Message) : locked.lpush msg ≠ w := by
          intro h
          have hqueue := congrArg (fun w : World ↦ w.queue.length) h
          simp [← hlocked, World.lpush, World.setSlot] at hqueue
        simp only [if_true, atomic_write]
        cases hpushOk : f.pushOk with
        | false =>
          rcases f.thrown .lpush with _ | _ | _ <;> simp [atomic_refused, hlock, hpass]
        | true =>
          rcases hlpush : f.thrown .lpush with _ | _ | _ <;>
            simp [atomic_success, Faults.throws, hpush, hlock, hpass, hlpush]
  · rw [genSecret_aborts hpass]
    simp [Atomic, hpass, Result.status]

theorem ne_of_counted {s t : Slot} (h : t.count = (counted s).count) : t ≠ s := by
  rintro rfl
  have hcount := congrFun h .server
  simp only [counted, Function.update_self] at hcount
  cases hc : t.count .server with
  | none =>
    rw [hc] at hcount
    cases hcount
  | some n => simp [hc] at hcount

/-- Once the piece is counted, `move` leaves nothing half done if and only if it answers 200. -/
theorem move_atomic_iff {f : Faults} {nodeId : ℕ} {data : List SecretDto} {s : Slot} :
    Atomic ((move cfg f nodeId data (counted s)).1.status f,
      (move cfg f nodeId data (counted s)).2) s ↔
      Copies f nodeId s ∧ f.thrown .zadd = none ∧ ¬f.throws .response := by
  have hiff : Copies f nodeId (counted s) ↔ Copies f nodeId s :=
    ⟨fun h ↦ ⟨h.isValid, h.valid, h.moveBuffer⟩, fun h ↦ ⟨h.isValid, h.valid, h.moveBuffer⟩⟩
  by_cases hcopies : Copies f nodeId (counted s)
  · rw [move_copies hcopies, atomic_write, atomic_success rfl]
    constructor
    · rintro ⟨hfalse, htrue, hnone⟩
      rcases hzadd : f.thrown .zadd with _ | _ | _
      · refine ⟨hiff.mp hcopies, rfl, fun hthrows ↦ ?_⟩
        exact absurd (hnone hzadd hthrows) (ne_of_counted rfl)
      · exact absurd (hfalse hzadd) (ne_of_counted rfl)
      · exact absurd (htrue hzadd) (ne_of_counted rfl)
    · rintro ⟨-, hzadd, hresponse⟩
      rw [hzadd]
      exact ⟨nofun, nofun, fun _ hthrows ↦ absurd hthrows hresponse⟩
  · have hrefuses : Refuses f (counted s) (move cfg f nodeId data (counted s)) :=
      move_refuses hcopies
    obtain ⟨hslot, code, hcode, hne⟩ := hrefuses
    rw [hcode, hslot, atomic_iff_of_ne hne]
    exact iff_of_false (ne_of_counted rfl) fun h ↦ hcopies (hiff.mpr h.1)

theorem getDataSlot_atomic_iff {f : Faults} {r : GetData.Request cfg} {s : Slot} :
    Atomic ((getDataSlot f r s).1.status f, (getDataSlot f r s).2) s ↔
      ¬(Pulls f r s ∧ (f.thrown .zincrby = some true ∨ f.thrown .zincrby = none ∧
        (f.throws .response ∨ cfg.progress ≤ (s.count .server).getD 0 + 1 ∧
          ¬(Copies f r.nodeId s ∧ f.thrown .zadd = none)))) := by
  by_cases hpulls : Pulls f r s
  · obtain ⟨data, hdata⟩ := getDataSlot_pulls hpulls
    have hcounted : counted s ≠ s := ne_of_counted rfl
    rw [hdata, atomic_write]
    by_cases hlast : cfg.progress ≤ (s.count .server).getD 0 + 1
    · simp only [ge_iff_le, hlast, if_true, move_atomic_iff]
      rcases f.thrown .zincrby with _ | _ | _ <;> simp [hpulls, hcounted]
      tauto
    · simp only [ge_iff_le, hlast, if_false]
      rcases f.thrown .zincrby with _ | _ | _ <;> simp [hpulls, hcounted, atomic_success]
  · obtain ⟨hslot, code, hcode, hne⟩ := getDataSlot_refuses hpulls
    rw [hcode, hslot]
    exact iff_of_true ((atomic_iff_of_ne hne).mpr rfl) fun h ↦ hpulls h.1

theorem getData_atomic_iff {f : Faults} {w : World} {body : GetDataPostDto}
    {coins : ℕ → Coins cfg} :
    Atomic (handle f w (.getData body coins)) w ↔ ¬HalfDone f w (.getData body coins) := by
  simp only [handle, HalfDone]
  by_cases hpass : body.Passes f
  · have hslot := getDataSlot_atomic_iff (f := f) (r := body.request hpass coins)
      (s := w.slot (indexOf body.indexArg))
    rw [getData_answers hpass]
    simp only [Atomic, World.setSlot_eq_self_iff, exists_prop_of_true hpass]
    exact hslot
  · rw [getData_aborts hpass]
    simp [Atomic, hpass, Result.status]

theorem resultReportSlot_atomic_iff (f : Faults) (nodeId isValid : ℕ) (s : Slot) :
    Atomic ((resultReportSlot f nodeId isValid s).1.status f,
      (resultReportSlot f nodeId isValid s).2) s ↔
      ¬(f.thrown .createTime = none ∧ s.time .server ≠ none ∧
        if isValid = nodeSecretValid then
          s.valid nodeId ≠ some nodeSecretValid ∧
            (f.thrown .zadd = some true ∨ f.thrown .zadd = none ∧ f.throws .response)
        else if f.thrown .zadd = none ∧ s.secret (.server, nodeId) ≠ none ∧ f.secretRemoved then
          f.throws .response
        else s.valid nodeId ≠ some nodeSecretInvalid ∧ f.thrown .zadd ≠ some false) := by
  have hzadd (score : ℕ) : { s with valid := Function.update s.valid nodeId (some score) } = s ↔
      s.valid nodeId = some score := by
    constructor
    · intro h
      rw [← h]
      exact Function.update_self _ _ _
    · intro h
      rw [← h, Function.update_eq_self]
  rw [resultReportSlot]
  by_cases hcreated : f.throws .createTime
  · rw [if_pos hcreated]
    exact iff_of_true (atomic_thrown.mpr rfl) fun h ↦ by simp [Faults.throws, h.1] at hcreated
  rw [if_neg hcreated]
  rw [Bool.not_eq_true, Faults.throws_eq_false] at hcreated
  by_cases htime : s.time .server = none
  · rw [if_pos htime]
    exact iff_of_true ((atomic_refused (by simp)).mpr rfl) fun h ↦ h.2.1 htime
  rw [if_neg htime]
  by_cases hvalid : isValid = nodeSecretValid
  · rw [if_pos hvalid, if_pos hvalid, atomic_write, atomic_success rfl, hzadd]
    rcases f.thrown .zadd with _ | _ | _ <;> simp [hcreated, htime]
    rw [← Bool.not_eq_true]
    exact not_imp_not.symm
  rw [if_neg hvalid, if_neg hvalid, atomic_write, hzadd]
  by_cases hsecret : s.secret (.server, nodeId) = none
  · simp only [hsecret, if_true]
    rw [atomic_refused (by simp), hzadd]
    rcases f.thrown .zadd with _ | _ | _ <;> simp [hcreated, htime]
  simp only [hsecret, if_false]
  cases hremoved : f.secretRemoved with
  | false =>
    simp only [Bool.not_false, if_true]
    rw [atomic_refused (by simp), hzadd]
    rcases f.thrown .zadd with _ | _ | _ <;> simp [hcreated, htime]
  | true =>
    have hgone (valid : ℕ → Option ℕ) : { s with
        valid := valid
        secret := Function.update s.secret (.server, nodeId) none } ≠ s := by
      intro h
      have hfile := congrArg (fun s : Slot ↦ s.secret (.server, nodeId)) h
      simp only [Function.update_self] at hfile
      exact hsecret hfile.symm
    simp only [Bool.not_true, Bool.false_eq_true, if_false]
    rw [atomic_success rfl]
    rcases f.thrown .zadd with _ | _ | _ <;> simp [hcreated, htime, hsecret, hgone]

theorem resultReport_atomic_iff {f : Faults} {w : World} {body : ResultReportPostDto} :
    Atomic (handle f w (.resultReport body : Post cfg)) w ↔
      ¬HalfDone f w (.resultReport body : Post cfg) := by
  simp only [handle, HalfDone]
  by_cases hpass : body.Passes f
  · have hslot := resultReportSlot_atomic_iff f (nodeIdOf body.nodeIdArg)
      (isValidOf body.isValidArg) (w.slot (indexOf body.indexArg))
    rw [resultReport_answers hpass]
    simpa [Atomic, World.setSlot_eq_self_iff, hpass] using hslot
  · rw [resultReport_aborts hpass]
    simp [Atomic, hpass, Result.status]

/-- A refused request leaves all keys and files alone if and only if it is not one of three: a
`gen_secret` that fails behind its lock, a `get_data` that fails behind its count, and a report
that fails behind a score it has changed or a secret it has removed. -/
theorem refused_atomic_iff (f : Faults) (w : World) (req : Post cfg) :
    (∀ code, (handle f w req).1 = some code → code ≠ 200 → (handle f w req).2 = w) ↔
      ¬HalfDone f w req := by
  cases req with
  | genSecret body fuel randomStr randomNum => exact genSecret_atomic_iff
  | getData body coins => exact getData_atomic_iff
  | resultReport body => exact resultReport_atomic_iff

/-- The node of a secret that is still waiting reports it invalid. -/
theorem refused_report_writes : ∃ t : Sequence.State Unit,
    Reachable Sequence.State.step (fun _ (_ : Sequence.Act Config.release Unit) ↦ True)
      (Sequence.State.start Unit 1 fun _ ↦ []) t ∧
      let r := handle (Faults.success Config.release) t.world
        (Sequence.report Sequence.exampleIndex 2)
      r.1 = some 500 ∧ r.2 ≠ t.world := by
  obtain ⟨t, ht, hslot, -⟩ := Sequence.generating_reaches fun _ ↦ []
  refine ⟨t, .of_exec ht, ?_⟩
  rw [Sequence.handle_report_generated hslot]
  refine ⟨rfl, ?_⟩
  intro h
  have hvalid := congrArg (fun s : Slot ↦ s.valid clientNode.toNat)
    (World.setSlot_eq_self_iff.mp h)
  rw [hslot] at hvalid
  cases hvalid

end Atomic

end ShannonNet.Server
