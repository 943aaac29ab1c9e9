import ShannonNet.Server.Handlers

namespace ShannonNet.Server

open Library.Bitset Library.Buffer Library.Runs Utils

/-- No command or file operation fails, apart from the opening of a target that has no directory. -/
structure Faults.Fair (cfg : Config) (f : Faults) : Prop where
  thrown : ∀ c, f.thrown c = none
  setOk : f.setOk = true
  pushOk : f.pushOk = true
  waitingOpened : f.waitingOpened = true
  moveOpened : f.moveOpened = true
  moveRead : cfg.secretASize ≤ f.moveRead
  written : cfg.secretASize ≤ f.written
  waitingRemoved : f.waitingRemoved = true
  secretRemoved : f.secretRemoved = true

section GetData

variable {cfg : Config} {f : Faults} {r : GetData.Request cfg} {s : Slot} {dir : ℕ → Bool}

/-- `q` is what the steps of the request lead to from `p`. -/
def Ends (dir : ℕ → Bool) (r : GetData.Request cfg) (p : GetData.Pc × Slot)
    (q : Result (List SecretDto) × Slot) : Prop :=
  ∃ res, q.1 = .response res ∧
    Leads (fun p : GetData.Pc × Slot ↦ p.1.step dir r p.2) p (.done res, q.2)

theorem Ends.done (res : Response (List SecretDto)) (t : Slot) :
    Ends dir r (.done res, t) (.response res, t) := ⟨res, rfl, .refl _⟩

theorem Ends.step {p u : GetData.Pc × Slot}
    {q : Result (List SecretDto) × Slot} (h : Ends dir r u q)
    (hstep : p.1.step dir r p.2 = some u) : Ends dir r p q := by
  obtain ⟨res, hres, hleads⟩ := h
  exact ⟨res, hres, Leads.head hstep hleads⟩

theorem moveBufferVec_fair (hf : f.Fair cfg) (waiting : Bytes) :
    (moveBufferVec cfg f waiting).take f.written = load cfg.secretASize waiting 0 := by
  have htake : (waiting.take f.moveRead).take cfg.secretASize = waiting.take cfg.secretASize := by
    rw [List.take_take, min_eq_left hf.moveRead]
  have hlen : cfg.secretASize - (waiting.take f.moveRead).length =
      cfg.secretASize - waiting.length := by
    have hle := hf.moveRead
    rw [List.length_take]
    omega
  rw [moveBufferVec, hf.moveOpened, if_pos rfl, load_start, htake, hlen, ← load_start,
    List.take_of_length_le (by rw [load_length]; exact hf.written)]

theorem move_ends (hf : f.Fair cfg) (hdir : f.targetOpened = dir r.nodeId)
    (hsecret : s.secret (.server, r.nodeId) = none) (data : List SecretDto) :
    Ends dir r (.isValid data, s) (move cfg f r.nodeId data s) := by
  by_cases hvalid : (s.valid r.nodeId).getD 0 = 0
  · rw [move_moves ⟨hf.thrown _, hvalid, hf.thrown _⟩ (hf.thrown _), copied, moveBufferVec_fair hf,
      hf.waitingRemoved, hdir, if_pos rfl]
    refine Ends.step (u := (.moveRead data, s)) ?_ (by simp [GetData.Pc.step, hvalid])
    refine Ends.step ?_ rfl
    refine Ends.step ?_ rfl
    refine Ends.step ?_ rfl
    refine Ends.step ?_ rfl
    refine Ends.step (u := _) (.done _ _) ?_
    cases hd : dir r.nodeId with
    | true => simp [GetData.Pc.step, overlay_nil, GetData.success]
    | false => simp [GetData.Pc.step, hsecret, GetData.success]
  · rw [move, Faults.throws_eq_false.mpr (hf.thrown _), if_neg (by simp), if_pos hvalid]
    exact Ends.step (.done _ _) (by simp [GetData.Pc.step, hvalid, GetData.error])

theorem zincrby_ends (hf : f.Fair cfg) (hdir : f.targetOpened = dir r.nodeId)
    (hsecret : s.secret (.server, r.nodeId) = none) (data : List SecretDto) :
    Ends dir r (.zincrby data, s) (if (s.count .server).getD 0 + 1 ≥ cfg.progress then
      move cfg f r.nodeId data (counted s)
        else (.response ⟨200, "success", data⟩, counted s)) := by
  split_ifs with hlast
  · exact Ends.step (move_ends (s := counted s) hf hdir hsecret data)
      (by simp [GetData.Pc.step, hlast, counted])
  · exact Ends.step (.done _ _) (by simp [GetData.Pc.step, hlast, counted, GetData.success])

/-- Without faults of its own a handler that is alone does what its steps do, on a running key of
full length. -/
theorem getDataSlot_ends (hf : f.Fair cfg) (hdir : f.targetOpened = dir r.nodeId)
    (hlen : ∀ running, s.running .server = some running → cfg.secretFileSize ≤ running.length) :
    Ends dir r (.createTime, s) (getDataSlot f r s) := by
  have hthrows (c : Call) : f.throws c = false := Faults.throws_eq_false.mpr (hf.thrown c)
  by_cases htime : s.time .server = none
  · rw [getDataSlot, hthrows, if_neg (by simp), if_pos htime]
    exact Ends.step (.done _ _) (by simp [GetData.Pc.step, htime, GetData.error])
  have hcreated : GetData.Pc.createTime.step dir r s = some (.runningExists, s) := by
    simp [GetData.Pc.step, Option.isSome_iff_ne_none, htime]
  cases hrunning : s.running .server with
  | none =>
    have hslot : getDataSlot f r s = (.response ⟨500, "running secret not exist", []⟩, s) := by
      simp [getDataSlot, hthrows, htime, hrunning]
    rw [hslot]
    refine Ends.step ?_ hcreated
    exact Ends.step (.done _ _) (by simp [GetData.Pc.step, hrunning, GetData.error])
  | some running =>
    have hrunning' : GetData.Pc.runningExists.step dir r s = some (.waitingExists, s) := by
      simp [GetData.Pc.step, hrunning]
    cases hwaiting : s.waiting with
    | none =>
      have hslot : getDataSlot f r s = (.response ⟨500, "waiting secret not exist", []⟩, s) := by
        simp [getDataSlot, hthrows, htime, hrunning, hwaiting]
      rw [hslot]
      refine Ends.step (Ends.step ?_ hrunning') hcreated
      exact Ends.step (.done _ _) (by simp [GetData.Pc.step, hwaiting, GetData.error])
    | some content =>
      have hwaiting' : GetData.Pc.waitingExists.step dir r s = some (.secretExists, s) := by
        simp [GetData.Pc.step, hwaiting]
      by_cases hsecret : s.secret (.server, r.nodeId) = none
      · have hread : ∀ {q}, Ends dir r (.read running content, s) q →
            Ends dir r (.createTime, s) q := by
          intro q h
          refine Ends.step (Ends.step (Ends.step ?_ hwaiting') hrunning') hcreated
          refine Ends.step (u := (.fromFile, s)) ?_ (by simp [GetData.Pc.step, hsecret])
          refine Ends.step (u := (.openWaiting running, s)) ?_ (by simp [GetData.Pc.step, hrunning])
          exact Ends.step h (by simp [GetData.Pc.step, hwaiting])
        rw [getDataSlot_process (hf.thrown _) htime hrunning hwaiting hsecret (hf.thrown _)
          (hlen running hrunning)]
        by_cases hprogress : r.progress < cfg.progress
        · rw [process_pulls hf.waitingOpened hprogress (hf.thrown _),
            Faults.write_returns (hf.thrown _)]
          exact hread (Ends.step (zincrby_ends hf hdir hsecret _)
            (GetData.Pc.step_read hprogress))
        · rw [process, hf.waitingOpened, if_neg (by simp), if_pos (Nat.not_lt.mp hprogress),
            hthrows, if_neg (by simp)]
          exact hread (Ends.step (.done _ _) (if_pos (Nat.not_lt.mp hprogress)))
      · have hslot : getDataSlot f r s = (.response ⟨500, "current secret exists", []⟩, s) := by
          simp [getDataSlot, hthrows, htime, hrunning, hwaiting, Option.isSome_iff_ne_none, hsecret]
        rw [hslot]
        refine Ends.step (Ends.step (Ends.step ?_ hwaiting') hrunning') hcreated
        exact Ends.step (.done _ _) (by
          simp [GetData.Pc.step, Option.isSome_iff_ne_none, hsecret, GetData.error])

end GetData

theorem resultReportSlot_leads {cfg : Config} {f : Faults} (hf : f.Fair cfg)
    (nodeId isValid : ℕ) (s : Slot) :
    ∃ res t, resultReportSlot f nodeId isValid s = (.response res, t) ∧
      Leads (fun p : ResultReport.Pc × Slot ↦ p.1.step nodeId isValid p.2) (.createTime, s)
        (.done res, t) := by
  rw [resultReportSlot, Faults.throws_eq_false.mpr (hf.thrown _), if_neg (by simp)]
  by_cases htime : s.time .server = none
  · rw [if_pos htime]
    refine ⟨_, _, rfl, Leads.head ?_ (.refl _)⟩
    simp [ResultReport.Pc.step, htime]
  rw [if_neg htime]
  have hcreated : ResultReport.Pc.createTime.step nodeId isValid s = some (.zadd, s) := by
    simp [ResultReport.Pc.step, Option.isSome_iff_ne_none, htime]
  by_cases hvalid : isValid = nodeSecretValid
  · rw [if_pos hvalid, Faults.write_returns (hf.thrown _)]
    refine ⟨_, _, rfl, Leads.head hcreated (Leads.head ?_ (.refl _))⟩
    simp [ResultReport.Pc.step, hvalid]
  rw [if_neg hvalid, Faults.write_returns (hf.thrown _)]
  by_cases hsecret : s.secret (.server, nodeId) = none
  · rw [if_pos hsecret]
    refine ⟨_, _, rfl, Leads.head hcreated (Leads.head (if_neg hvalid) (Leads.head ?_ (.refl _)))⟩
    simp [ResultReport.Pc.step, hsecret]
  · rw [if_neg hsecret, hf.secretRemoved, if_neg (by simp)]
    refine ⟨_, _, rfl, Leads.head hcreated (Leads.head (if_neg hvalid) ?_)⟩
    refine Leads.head (t := (.remove, _)) (by
      simp [ResultReport.Pc.step, Option.isSome_iff_ne_none, hsecret]; rfl) ?_
    exact Leads.head rfl (.refl _)

section GenSecret

variable {nodeId : ℕ} {w w' : World}

def genSecretStep (nodeId : ℕ) (p : GenSecret.Pc × World) (d : GenSecret.Draw) :
    Option (GenSecret.Pc × World) :=
  some (p.1.step nodeId d p.2)

theorem generateIndex_reaches (nodeId : ℕ) {f : Faults} {randomStr : ℕ → Str} {fuel call : ℕ}
    {x : Str} (h : generateIndex f w randomStr fuel call = .found x) :
    Reachable (genSecretStep nodeId) (fun _ _ ↦ True) (.generate, w) (.set x, w) := by
  induction fuel generalizing call with
  | zero => cases h
  | succ fuel ih =>
    have hdraw : Reachable (genSecretStep nodeId) (fun _ _ ↦ True) (.generate, w)
        (.generate, w) := .start
    have hdraw := hdraw.next (a := ⟨randomStr call, 0, true⟩) trivial rfl
    have hdraw := hdraw.next (a := ⟨[], 0, true⟩) trivial rfl
    have hdraw := hdraw.next (a := ⟨[], 0, true⟩) trivial rfl
    simp only [generateIndex] at h
    split_ifs at h with hthrows hfree
    · cases h
      simpa [GenSecret.Pc.step, hfree.1, hfree.2] using hdraw
    · have hagain : Reachable (genSecretStep nodeId) (fun _ _ ↦ True) (.generate, w)
          (.generate, w) := by
        have htaken : ¬((w.slot (randomStr call)).lock = none ∧
            (w.slot (randomStr call)).time .server = none) := hfree
        simpa [GenSecret.Pc.step, htaken] using hdraw
      exact hagain.trans (ih h)

theorem genSecret_reaches {fuel : ℕ} {randomStr : ℕ → Str} {randomNum : ℕ} {f : Faults}
    {body : GenSecretPostDto} {res : Response (Option GenSecret.Dto)}
    (h : genSecret fuel randomStr randomNum f body w = (.response res, w')) :
    Reachable (genSecretStep (nodeIdOf body.nodeIdArg)) (fun _ _ ↦ True) (.generate, w)
      (.done res, w') := by
  by_cases hpass : body.Passes f
  · cases hx : generateIndex f w randomStr fuel 0 with
    | looping =>
      rw [genSecret_loops hpass hx] at h
      cases h
    | thrown =>
      rw [genSecret_throws hpass hx] at h
      cases h
    | found x =>
      have hset := (generateIndex_reaches (nodeIdOf body.nodeIdArg) hx).next
        (a := ⟨[], 0, f.setOk⟩) trivial rfl
      rw [genSecret_answers hpass hx] at h
      cases hthrown : f.thrown .set with
      | some executed =>
        rw [Faults.write_throws hthrown] at h
        cases h
      | none =>
        rw [Faults.write_returns hthrown] at h
        cases hsetOk : f.setOk with
        | false =>
          simp only [hsetOk, Bool.false_eq_true, if_false] at h hset
          cases h
          exact hset
        | true =>
          simp only [hsetOk, if_true] at h hset
          cases hthrown' : f.thrown .lpush with
          | some executed =>
            rw [Faults.write_throws hthrown'] at h
            cases h
          | none =>
            rw [Faults.write_returns hthrown'] at h
            cases hpushOk : f.pushOk with
            | false =>
              simp only [hpushOk, Bool.false_eq_true, if_false] at h
              cases h
              exact hset.next (a := ⟨[], randomNum, false⟩) trivial rfl
            | true =>
              simp only [hpushOk, if_true] at h
              cases h
              exact hset.next (a := ⟨[], randomNum, true⟩) trivial rfl
  · rw [genSecret_aborts hpass] at h
    cases h

end GenSecret

end ShannonNet.Server
