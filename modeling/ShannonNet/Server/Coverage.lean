import ShannonNet.Server.Pool
import Mathlib.Data.List.Perm.Subperm

namespace ShannonNet.Server.Coverage

open Library.Runs Library.Bitset Library.Buffer GetData

variable {cfg : Config} {dir : ℕ → Bool} {ι : Type} {req : ι → Request cfg}

def Served : Pc → Prop
  | .zincrby _ => True
  | .isValid _ => True
  | .done res => res.statusCode = 200
  | pc => pc.InMove

def Late : Pc → Prop
  | .isValid _ => True
  | pc => pc.InMove

def FreshPiece (req : ι → Request cfg) (p : Pool ι) (i : ι) : Prop :=
  (p.request i).isZincrby = true → ∀ j ∈ p.counted, (req j).progress ≠ (req i).progress

def Covered (req : ι → Request cfg) (p : Pool ι) : Prop :=
  ∀ n < cfg.progress, ∃ j, (req j).progress = n ∧ Served (p.request j)

/-- The waiting secret is copied and removed only when all its pieces went out. -/
def NoPrematureMove (dir : ℕ → Bool) [DecidableEq ι] (req : ι → Request cfg) (p : Pool ι) : Prop :=
  ∀ i q, p.step dir req i = some q →
    q.slot.secret ≠ p.slot.secret ∨ q.slot.waiting ≠ p.slot.waiting → Covered req p

structure Initial (p : Pool ι) : Prop where
  request : ∀ i, p.request i = .createTime
  counted : p.counted = []
  count : (p.slot.count .server).getD 0 = 0

structure Invariant (req : ι → Request cfg) (p : Pool ι) : Prop where
  count : (p.slot.count .server).getD 0 = p.counted.length
  nodup : (p.counted.map fun j ↦ (req j).progress).Nodup
  lt : ∀ j ∈ p.counted, (req j).progress < cfg.progress
  ready : ∀ i, (p.request i).isZincrby = true → (req i).progress < cfg.progress
  served : ∀ j ∈ p.counted, Served (p.request j) ∨
    (cfg.progress ≤ p.counted.length ∧ p.counted.head? = some j)
  late : ∀ i, Late (p.request i) → cfg.progress ≤ p.counted.length ∧ p.counted.head? = some i

theorem Initial.invariant {p : Pool ι} (h : Initial p) : Invariant req p where
  count := by rw [h.count, h.counted]; rfl
  nodup := by rw [h.counted]; exact List.nodup_nil
  lt j hj := by rw [h.counted] at hj; exact absurd hj (by simp)
  ready i hi := by rw [h.request] at hi; exact absurd hi (by simp [Pc.isZincrby])
  served j hj := by rw [h.counted] at hj; exact absurd hj (by simp)
  late i hi := by rw [h.request] at hi; exact hi.elim

theorem length_le_of_nodup {l : List ℕ} {n : ℕ} (hnd : l.Nodup) (hlt : ∀ k ∈ l, k < n) :
    l.length ≤ n ∧ (n ≤ l.length → ∀ k < n, k ∈ l) := by
  have hsub : l.Subperm (List.range n) := hnd.subperm fun k hk ↦ List.mem_range.mpr (hlt k hk)
  refine ⟨by simpa using hsub.length_le, ?_⟩
  intro hle k hk
  exact (hsub.perm_of_length_le (by simpa using hle)).mem_iff.mpr (List.mem_range.mpr hk)

theorem of_inMove {pc : Pc} (h : pc.InMove) : Late pc ∧ Served pc := by
  cases pc with
  | isValid data => exact h.elim
  | zincrby data => exact h.elim
  | done res => exact h.elim
  | _ => exact ⟨h, h⟩

theorem step_other {r : Request cfg} {pc pc' : Pc} {s s' : Slot}
    (h : pc.step dir r s = some (pc', s')) (hcount : pc.isZincrby = false) :
    (pc'.isZincrby = true → r.progress < cfg.progress) ∧ (Late pc' → Late pc) ∧
      (Served pc → Late pc) := by
  cases pc with
  | createTime =>
    cases h
    split_ifs <;> simp [Pc.isZincrby, Late, Served, Pc.InMove, error]
  | runningExists =>
    cases h
    split_ifs <;> simp [Pc.isZincrby, Late, Served, Pc.InMove, error]
  | waitingExists =>
    cases h
    split_ifs <;> simp [Pc.isZincrby, Late, Served, Pc.InMove, error]
  | secretExists =>
    cases h
    split_ifs <;> simp [Pc.isZincrby, Late, Served, Pc.InMove, error]
  | fromFile =>
    obtain ⟨rfl, running, rfl⟩ := Pc.fromFile_cases h
    simp [Pc.isZincrby, Late, Served, Pc.InMove]
  | openWaiting running =>
    cases h
    split <;> simp [Pc.isZincrby, Late, Served, Pc.InMove, error]
  | read running content =>
    obtain ⟨rfl, ⟨res, rfl⟩ | ⟨hp, data, rfl⟩⟩ := Pc.read_cases h
    · simp [Pc.isZincrby, Late, Served, Pc.InMove]
    · exact ⟨fun _ ↦ hp, id, id⟩
  | zincrby data => exact absurd hcount (by simp [Pc.isZincrby])
  | isValid data =>
    cases h
    split_ifs <;> simp [Pc.isZincrby, Late, error]
  | done res => exact absurd h (by simp [Pc.step])
  | moveRemove data =>
    cases h
    simp [Pc.isZincrby, Late, Pc.InMove, success]
  | _ =>
    cases h
    simp [Pc.isZincrby, Late, Pc.InMove]

variable [DecidableEq ι]

/-- A counted piece is new, so the counter was below `PROGRESS` and nobody was in `move`. -/
theorem invariant_zincrby {p : Pool ι} {i : ι} {data : List SecretDto} (hp : Invariant req p)
    (hpc : p.request i = .zincrby data) (hfresh : FreshPiece req p i) :
    Invariant req ((p.countOne i).moveTo i
      (if (p.slot.count .server).getD 0 + 1 ≥ cfg.progress then .isValid data
        else success data)) := by
  have hz : (p.request i).isZincrby = true := by rw [hpc]; rfl
  have hnodup : ((i :: p.counted).map fun j ↦ (req j).progress).Nodup := by
    rw [List.map_cons, List.nodup_cons]
    refine ⟨?_, hp.nodup⟩
    intro hmem
    obtain ⟨j, hj, heq⟩ := List.mem_map.mp hmem
    exact hfresh hz j hj heq
  have hlt : ∀ j ∈ i :: p.counted, (req j).progress < cfg.progress := by
    intro j hj
    rcases List.mem_cons.mp hj with rfl | hj
    · exact hp.ready j hz
    · exact hp.lt j hj
  have hroom : p.counted.length < cfg.progress := by
    have h := (length_le_of_nodup hnodup (fun n hn ↦ by
      obtain ⟨j, hj, rfl⟩ := List.mem_map.mp hn
      exact hlt j hj)).1
    rw [List.length_map, List.length_cons] at h
    omega
  have hserved (j : ι) (hj : j ∈ p.counted) : Served (p.request j) :=
    (hp.served j hj).resolve_right fun h ↦ absurd h.1 (by omega)
  have hlate (j : ι) : ¬Late (p.request j) := fun h ↦ absurd (hp.late j h).1 (by omega)
  set pc' : Pc := if (p.slot.count .server).getD 0 + 1 ≥ cfg.progress then .isValid data
    else success data with hpc'
  have hpc_served : Served pc' := by
    rw [hpc']
    split_ifs
    · trivial
    · rfl
  refine ⟨?_, hnodup, hlt, ?_, fun j hj ↦ .inl ?_, ?_⟩
  · exact (Pool.countOne_count p i).trans (by rw [hp.count]; rfl)
  · intro j hj
    by_cases hji : j = i
    · rw [hji, Pool.moveTo_request, hpc'] at hj
      split_ifs at hj <;> exact absurd hj (by simp [Pc.isZincrby, success])
    · rw [Pool.moveTo_request_of_ne hji] at hj
      exact hp.ready j hj
  · by_cases hji : j = i
    · rwa [hji, Pool.moveTo_request]
    · rw [Pool.moveTo_request_of_ne hji]
      exact hserved j ((List.mem_cons.mp hj).resolve_left hji)
  · intro j hj
    by_cases hji : j = i
    · subst hji
      rw [Pool.moveTo_request, hpc', hp.count] at hj
      split_ifs at hj with hge
      · exact ⟨hge, rfl⟩
      · exact hj.elim
    · rw [Pool.moveTo_request_of_ne hji] at hj
      exact absurd hj (hlate j)

theorem invariant_step {p q : Pool ι} {i : ι} (hp : Invariant req p) (hfresh : FreshPiece req p i)
    (h : p.step dir req i = some q) : Invariant req q := by
  cases Pool.step_kind dir req h with
  | count hpc => exact invariant_zincrby hp hpc hfresh
  | other hz hstep =>
    obtain ⟨hready, hlate, hserved⟩ := step_other hstep hz
    have hcount := Pc.step_count hstep
    rw [hz] at hcount
    refine ⟨?_, hp.nodup, hp.lt, ?_, ?_, ?_⟩
    · simp only [hcount]
      exact hp.count
    · intro j hj
      by_cases hji : j = i
      · subst hji
        exact hready (by simpa using hj)
      · exact hp.ready j (by simpa [hji] using hj)
    · intro j hj
      by_cases hji : j = i
      · subst hji
        rcases hp.served j hj with h | h
        · exact .inr (hp.late j (hserved h))
        · exact .inr h
      · simpa [hji] using hp.served j hj
    · intro j hj
      by_cases hji : j = i
      · subst hji
        exact hp.late j (hlate (by simpa using hj))
      · exact hp.late j (by simpa [hji] using hj)

/-- In a run that counts no piece twice, the waiting secret is copied and removed only once every
piece has been answered, or is being answered, with its data. -/
theorem no_premature_move (dir : ℕ → Bool) (req : ι → Request cfg) {p q : Pool ι}
    (hinit : Initial p)
    (hrun : Reachable (Pool.step dir req) (FreshPiece req) p q) : NoPrematureMove dir req q := by
  have hinv : Invariant req q := hrun.invariant hinit.invariant
    fun _ _ _ hp hfresh h ↦ invariant_step hp hfresh h
  intro i t h hchange
  obtain ⟨pc', s', hstep, rfl⟩ := Pool.step_cases dir req h
  have hin : (q.request i).InMove := by
    by_contra hout
    have hframe := (Pc.step_frame hstep hout).1
    rw [hframe] at hchange
    exact hchange.elim (absurd rfl) (absurd rfl)
  obtain ⟨hlen, hhead⟩ := hinv.late i (of_inMove hin).1
  intro n hn
  have hmem := (length_le_of_nodup hinv.nodup (fun n hn ↦ by
    obtain ⟨j, hj, rfl⟩ := List.mem_map.mp hn
    exact hinv.lt j hj)).2 (by simpa using hlen) n hn
  obtain ⟨j, hj, rfl⟩ := List.mem_map.mp hmem
  refine ⟨j, rfl, (hinv.served j hj).elim id ?_⟩
  intro h
  obtain rfl := Option.some.inj (hhead.symm.trans h.2)
  exact (of_inMove hin).2

theorem no_premature_move_single :
    ∃ q : Pool (Fin 1), NoPrematureMove (fun _ ↦ true) (fun _ ↦ Pool.plainRequest 7) q ∧
      q.counted = [0] := by
  let req (_ : Fin 1) : Request Config.release := Pool.plainRequest 7
  have hP : ∀ (p : Pool (Fin 1)) i, (p.request i).quiet = true → FreshPiece req p i :=
    fun _ _ h hz ↦ absurd hz (by simp [Pc.not_zincrby h])
  have hrun := Pool.prepare (fun _ ↦ true) req hP (i := 0) (p := Pool.ready _ 0)
    ⟨rfl, rfl, rfl, fun _ ↦ rfl⟩ rfl (by rw [show (req 0).progress = 7 from rfl]; decide)
  have hrun := hrun.next (fun _ j hj ↦ absurd hj (by simp [Pool.moveTo, Pool.ready]))
    (Pool.count _ _ (Pool.moveTo_request _))
  exact ⟨_, no_premature_move (fun _ ↦ true) req ⟨fun _ ↦ rfl, rfl, rfl⟩ hrun, rfl⟩

/-- As many requests as there are pieces, none of them for piece `n`: the last one copies the
waiting secret all the same. -/
theorem premature_move (dir : ℕ → Bool) (req : ι → Request cfg)
    (hprogress : ∀ i, (req i).progress < cfg.progress) {n : ℕ} (hn : n < cfg.progress)
    (hnone : ∀ i, (req i).progress ≠ n) {p : Pool ι} (hinit : Initial p)
    {running content : Bytes} (hs : Pool.Servable req running content p.slot) {l : List ι}
    (hl : l.Nodup) (hlen : l.length + 1 = cfg.progress) {a : ι} (ha : a ∉ l)
    (hdir : dir (req a).nodeId = true) (hvalid : p.slot.valid (req a).nodeId = none) :
    ∃ q, Reachable (Pool.step dir req) (fun _ _ ↦ True) p q ∧ ¬NoPrematureMove dir req q := by
  have hP : ∀ (p : Pool ι) i, (p.request i).quiet = true → True := fun _ _ _ ↦ trivial
  have hC : ∀ (p : Pool ι) i, (p.request i).isZincrby = true → True := fun _ _ _ ↦ trivial
  have hcount := hinit.count
  obtain ⟨q, hrun, hslot, hq, hidle, -, -⟩ := Pool.serve_all dir req hP hC l p hs hl
    (fun i _ ↦ hinit.request i) (fun i _ ↦ hprogress i) (by omega)
  have hq_valid : q.slot.valid = p.slot.valid := by rw [hslot]
  have hqs := hs.frame hslot
  have hrun_a := Pool.serve dir req hP hC (i := a) hqs ((hidle a ha).trans (hinit.request a))
    (hprogress a)
  rw [if_pos (by omega)] at hrun_a
  set data := pieceData cfg running content (req a)
  have hrun := (hrun.trans hrun_a).next trivial (Pool.enter dir req (Pool.moveTo_request _)
    (show (q.slot.valid (req a).nodeId).getD 0 = 0 by rw [hq_valid, hvalid]; rfl))
  have hrun := Pool.next_moveTo hP rfl rfl rfl hrun
  refine ⟨_, hrun, ?_⟩
  intro h
  have hcover := h a _ (Pool.step_moveTo (by rw [Pc.step, if_pos hdir])) (.inl fun heq ↦ by
    have hfile := congrFun heq (.server, (req a).nodeId)
    change Function.update q.slot.secret (.server, (req a).nodeId) (some []) _ =
      q.slot.secret _ at hfile
    rw [Function.update_self, hqs.secret a] at hfile
    exact absurd hfile (by simp))
  obtain ⟨j, hj, -⟩ := hcover n hn
  exact hnone j hj

def firstOnly (_ : Fin 1024) : Request Config.release := Pool.plainRequest 0

/-- `PROGRESS` requests for the first piece destroy the only copy of all the others. -/
theorem moved_after_first_piece :
    ∃ q, Reachable (Pool.step (fun _ ↦ true) firstOnly) (fun _ _ ↦ True) (Pool.ready _ 0) q ∧
      Initial (Pool.ready (Fin 1024) 0) ∧ ¬NoPrematureMove (fun _ ↦ true) firstOnly q := by
  have hprogress : Config.release.progress = 1024 := by
    norm_num [Config.progress, Config.release]
  have hinit : Initial (Pool.ready (Fin 1024) 0) := ⟨fun _ ↦ rfl, rfl, rfl⟩
  let l : List (Fin 1024) := (List.finRange 1023).map (Fin.castLE (by decide))
  obtain ⟨q, hrun, hq⟩ := premature_move (fun _ ↦ true) firstOnly
    (fun _ ↦ by rw [hprogress]; exact Nat.zero_lt_succ _) (n := 1) (by rw [hprogress]; norm_num)
    (fun _ ↦ zero_ne_one) hinit ⟨rfl, rfl, rfl, fun _ ↦ rfl⟩ (l := l)
    ((List.nodup_finRange _).map (Fin.castLE_injective _))
    (by rw [hprogress, List.length_map, List.length_finRange]) (a := 1023)
    (fun h ↦ by
      obtain ⟨i, -, hi⟩ := List.mem_map.mp h
      have hlt := i.isLt
      have hval := congrArg Fin.val hi
      change i.val = 1023 at hval
      omega) rfl rfl
  exact ⟨q, hrun, hinit, hq⟩

end ShannonNet.Server.Coverage
