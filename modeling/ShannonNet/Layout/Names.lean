import ShannonNet.Client.NodePair
import ShannonNet.Generator.Queue
import ShannonNet.Utils.RandomStr

namespace ShannonNet.Layout

open Client.NodePair Generator.Queue Utils

/-- What `genRandomStr` can return, but for the length. -/
structure IsIndex (index : Index) : Prop where
  ne_nil : index ≠ []
  alnum : ∀ c ∈ index, c.isAlphanum = true

theorem isIndex_iff {index : Index} :
    index.isEmpty = false ∧ index.all Char.isAlphanum = true ↔ IsIndex index := by
  rw [List.isEmpty_eq_false_iff, List.all_eq_true]
  exact ⟨fun h ↦ ⟨h.1, h.2⟩, fun h ↦ ⟨h.ne_nil, h.alnum⟩⟩

instance (index : Index) : Decidable (IsIndex index) := decidable_of_iff _ isIndex_iff

def saveIndexLen : ℕ := 16

theorem isIndex_genRandomStr (rand : ℕ → ℕ) : IsIndex (genRandomStr rand saveIndexLen) := by
  obtain ⟨hlen, halnum⟩ := exists_genRandomStr_iff.mp ⟨rand, rfl⟩
  refine ⟨?_, halnum⟩
  intro hnil
  rw [hnil] at hlen
  cases hlen

theorem IsIndex.not_mem {index : Index} (h : IsIndex index) {c : Char}
    (hc : c.isAlphanum = false) : c ∉ index := by
  intro hmem
  rw [h.alnum c hmem] at hc
  cases hc

def name : Source → Str
  | .server => "server".toList
  | .client => "client".toList

theorem name_injective : Function.Injective name := by
  intro a b h
  cases a <;> cases b <;> first | rfl | cases h

section Redis

inductive Zset
  | time (source : Source)
  | count (source : Source)
  | valid (nodeId : ℕ)
  deriving DecidableEq

def Zset.key : Zset → Str
  | time source => "shannonnet_".toList ++ name source ++ "_save_index_time_zset".toList
  | count source => "shannonnet_".toList ++ name source ++ "_count_index_num_zset".toList
  | valid nodeId => "shannonnet_node_".toList ++ Nat.toDigits 10 serverNode ++
      '_' :: (Nat.toDigits 10 nodeId ++ "_index_valid_zset".toList)

/-- The keys the program uses: the lock of an index, the list of the generator and the sorted
sets, whose members are indices. -/
inductive Entry
  | lock (index : Index)
  | list
  | zset (z : Zset)
  deriving DecidableEq

def Entry.key : Entry → Str
  | lock index => index
  | list => "shannonnet_gen_secret_list".toList
  | zset z => z.key

def Entry.Proper : Entry → Prop
  | lock index => IsIndex index
  | _ => True

/-- A key between its underscores. -/
def Entry.fields : Entry → List Str
  | lock index => [index]
  | list => ["shannonnet".toList, "gen".toList, "secret".toList, "list".toList]
  | zset (.time source) => ["shannonnet".toList, name source, "save".toList, "index".toList,
      "time".toList, "zset".toList]
  | zset (.count source) => ["shannonnet".toList, name source, "count".toList, "index".toList,
      "num".toList, "zset".toList]
  | zset (.valid nodeId) => ["shannonnet".toList, "node".toList, Nat.toDigits 10 serverNode,
      Nat.toDigits 10 nodeId, "index".toList, "valid".toList, "zset".toList]

theorem toDigits_injective : Function.Injective (Nat.toDigits 10) := by
  intro a b h
  have hdigits := congrArg (fun s ↦ Nat.ofDigitChars 10 s 0) h
  simpa only [Nat.ofDigitChars_ten_toDigits] using hdigits

theorem Entry.splitOn_key {e : Entry} (he : e.Proper) : e.key.splitOn '_' = e.fields := by
  cases e with
  | lock index => exact List.splitOn_eq_singleton (he.not_mem rfl)
  | list => rfl
  | zset z =>
    cases z with
    | time source => cases source <;> rfl
    | count source => cases source <;> rfl
    | valid nodeId =>
      have hkey : (zset (.valid nodeId)).key = "shannonnet_node_".toList ++
          Nat.toDigits 10 serverNode ++
            '_' :: (Nat.toDigits 10 nodeId ++ "_index_valid_zset".toList) := rfl
      have hnode : "shannonnet_node_".toList = "shannonnet_node".toList ++ ['_'] := rfl
      have hvalid : "_index_valid_zset".toList = '_' :: "index_valid_zset".toList := rfl
      have hsplit (n : ℕ) (rest : Str) :
          (Nat.toDigits 10 n ++ '_' :: rest).splitOn '_' = Nat.toDigits 10 n :: rest.splitOn '_' :=
        List.splitOn_append_cons_self_of_not_mem Nat.underscore_not_in_toDigits rest
      rw [hkey, hnode, hvalid, List.append_assoc, List.append_assoc, List.singleton_append,
        List.splitOn_append_cons_self, hsplit serverNode, hsplit nodeId]
      rfl

theorem Entry.fields_injective : Function.Injective fields := by
  intro e e' h
  cases e with
  | lock index =>
    cases e' with
    | lock index' => exact congrArg lock (List.singleton_inj.mp h)
    | list => simp [fields] at h
    | zset z => cases z <;> simp [fields] at h
  | list =>
    cases e' with
    | lock index => simp [fields] at h
    | list => rfl
    | zset z => cases z <;> simp [fields] at h
  | zset z =>
    cases e' with
    | lock index => cases z <;> simp [fields] at h
    | list => cases z <;> simp [fields] at h
    | zset z' =>
      cases z <;> cases z' <;>
        simp_all [fields, name_injective.eq_iff, toDigits_injective.eq_iff]

/-- No key of the program stands for two things. -/
theorem Entry.key_injective {e e' : Entry} (he : e.Proper) (he' : e'.Proper)
    (h : e.key = e'.key) : e = e' := by
  apply fields_injective
  rw [← splitOn_key he, ← splitOn_key he', h]

end Redis

section Files

/-- The files of one index. -/
inductive File
  | running (source : Source)
  | share (source : Source) (threadIdx : ℕ)
  | tmp (source : Source) (fileIdx threadIdx : ℕ)
  | waiting
  | piece (progress : ℕ)
  | secret (source : Source) (nodeId : ℕ)
  deriving DecidableEq

def File.path (index : Index) : File → Str
  | running source =>
    Path.join (Path.join (savePath (name source) "/running/".toList) index)
      (index ++ ".bin".toList)
  | share source threadIdx =>
    Path.join (Path.join (savePath (name source) "/running/".toList) index)
      (index ++ '_' :: (Nat.toDigits 10 threadIdx ++ ".bin".toList))
  | tmp source fileIdx threadIdx =>
    Path.join
      (Path.join (Path.join (savePath (name source) "/running/".toList) index) "tmp".toList)
      (index ++ '_' :: (Nat.toDigits 10 fileIdx ++
        '_' :: (Nat.toDigits 10 threadIdx ++ ".bin".toList)))
  | waiting =>
    Path.join (Path.join (savePath (name .server) "/waiting/".toList) index)
      (index ++ "_waited.bin".toList)
  | piece progress =>
    Path.join (Path.join (savePath (name .client) "/waiting/".toList) index)
      (index ++ ".bin.".toList ++ Nat.toDigits 10 progress)
  | secret source nodeId =>
    Path.join (Path.join (savePath (name source) "/secrets/".toList) (nodeFmt serverNode nodeId))
      (index ++ ".bin".toList)

/-- The names on the way to a file: slashes that follow one another count as one. -/
def resolve (path : Str) : List Str := (path.splitOn '/').filter (· ≠ [])

theorem resolve_join (dir p : Str) : resolve (Path.join dir p) = resolve dir ++ resolve p := by
  rw [resolve, Path.join, List.splitOn_append_cons_self, List.filter_append]
  rfl

theorem resolve_of_not_mem {p : Str} (h : '/' ∉ p) (hne : p ≠ []) : resolve p = [p] := by
  rw [resolve, List.splitOn_eq_singleton h]
  simp [hne]

/-- The tree a file is in, its directory there, and the names from there on. -/
def File.place (index : Index) : File → Source × Str × List Str
  | running source => (source, "running".toList, [index, index ++ ".bin".toList])
  | share source threadIdx => (source, "running".toList,
      [index, index ++ '_' :: (Nat.toDigits 10 threadIdx ++ ".bin".toList)])
  | tmp source fileIdx threadIdx => (source, "running".toList,
      [index, "tmp".toList, index ++ '_' :: (Nat.toDigits 10 fileIdx ++
        '_' :: (Nat.toDigits 10 threadIdx ++ ".bin".toList))])
  | waiting => (.server, "waiting".toList, [index, index ++ "_waited.bin".toList])
  | piece progress => (.client, "waiting".toList,
      [index, index ++ ".bin.".toList ++ Nat.toDigits 10 progress])
  | secret source nodeId => (source, "secrets".toList,
      [nodeFmt serverNode nodeId, index ++ ".bin".toList])

/-- A name of a file or a directory. -/
structure IsName (p : Str) : Prop where
  slash : '/' ∉ p
  ne_nil : p ≠ []

theorem IsName.append {p q : Str} (hp : IsName p) (hq : '/' ∉ q) : IsName (p ++ q) := by
  refine ⟨?_, fun h ↦ hp.ne_nil (List.append_eq_nil_iff.mp h).1⟩
  rw [List.mem_append, not_or]
  exact ⟨hp.slash, hq⟩

theorem IsIndex.isName {index : Index} (h : IsIndex index) : IsName index :=
  ⟨h.not_mem rfl, h.ne_nil⟩

theorem slash_not_mem_toDigits (n : ℕ) : '/' ∉ Nat.toDigits 10 n := by
  intro h
  exact absurd (Nat.isDigit_of_mem_toDigits (by decide) (by decide) h) (by decide)

theorem isName_nodeFmt (serverNodeId clientNodeId : ℕ) :
    IsName (nodeFmt serverNodeId clientNodeId) := by
  have hnode : IsName ['n', 'o', 'd', 'e', '_'] := ⟨by decide, by decide⟩
  refine (hnode.append (slash_not_mem_toDigits _)).append ?_
  rw [List.mem_cons, not_or]
  exact ⟨by decide, slash_not_mem_toDigits _⟩

theorem IsName.resolve {p : Str} (h : IsName p) : resolve p = [p] :=
  resolve_of_not_mem h.slash h.ne_nil

theorem File.resolve_path {index : Index} (h : IsIndex index) (f : File) :
    resolve (f.path index) =
      ["home".toList, "wangkc".toList, "shannonnet".toList, name (f.place index).1,
        (f.place index).2.1] ++ (f.place index).2.2 := by
  have hindex := h.isName
  have hrunning (source : Source) : Layout.resolve (savePath (name source) "/running/".toList) =
      ["home".toList, "wangkc".toList, "shannonnet".toList, name source, "running".toList] := by
    cases source <;> rfl
  have hwaiting (source : Source) : Layout.resolve (savePath (name source) "/waiting/".toList) =
      ["home".toList, "wangkc".toList, "shannonnet".toList, name source, "waiting".toList] := by
    cases source <;> rfl
  have hsecrets (source : Source) : Layout.resolve (savePath (name source) "/secrets/".toList) =
      ["home".toList, "wangkc".toList, "shannonnet".toList, name source, "secrets".toList] := by
    cases source <;> rfl
  have hdigits (n : ℕ) {rest : Str} (hrest : '/' ∉ rest) :
      '/' ∉ '_' :: (Nat.toDigits 10 n ++ rest) := by
    rw [List.mem_cons, List.mem_append, not_or, not_or]
    exact ⟨by decide, slash_not_mem_toDigits n, hrest⟩
  cases f with
  | running source =>
    rw [path, resolve_join, resolve_join, hrunning, hindex.resolve,
      (hindex.append (by decide)).resolve]
    rfl
  | share source threadIdx =>
    rw [path, resolve_join, resolve_join, hrunning, hindex.resolve,
      (hindex.append (hdigits threadIdx (by decide))).resolve]
    rfl
  | tmp source fileIdx threadIdx =>
    have htmp : IsName "tmp".toList := ⟨by decide, by decide⟩
    rw [path, resolve_join, resolve_join, resolve_join, hrunning, hindex.resolve, htmp.resolve,
      (hindex.append (hdigits fileIdx (hdigits threadIdx (by decide)))).resolve]
    rfl
  | waiting =>
    rw [path, resolve_join, resolve_join, hwaiting, hindex.resolve,
      (hindex.append (by decide)).resolve]
    rfl
  | piece progress =>
    rw [path, resolve_join, resolve_join, hwaiting, hindex.resolve,
      ((hindex.append (by decide)).append (slash_not_mem_toDigits progress)).resolve]
    rfl
  | secret source nodeId =>
    rw [path, resolve_join, resolve_join, hsecrets, (isName_nodeFmt _ _).resolve,
      (hindex.append (by decide)).resolve]
    rfl

theorem toDigits_append_inj {a b : ℕ} {c : Char} {r r' : Str} (hc : c.isDigit = false)
    (h : Nat.toDigits 10 a ++ c :: r = Nat.toDigits 10 b ++ c :: r') : a = b ∧ r = r' := by
  have hdigits (n : ℕ) (rest : Str) :
      (Nat.toDigits 10 n ++ c :: rest).takeWhile Char.isDigit = Nat.toDigits 10 n := by
    rw [List.takeWhile_append_of_pos fun d hd ↦
      Nat.isDigit_of_mem_toDigits (by decide) (by decide) hd, List.takeWhile_cons, hc]
    exact List.append_nil _
  have hab : a = b := by
    apply toDigits_injective
    rw [← hdigits a r, ← hdigits b r', h]
  subst hab
  exact ⟨rfl, (List.cons.inj (List.append_cancel_left h)).2⟩

theorem File.place_injective {x y : Index} {f g : File} (h : f.place x = g.place y) :
    x = y ∧ f = g := by
  cases f <;> cases g <;> simp_all [place]
  case running.share =>
    obtain ⟨-, rfl, h⟩ := h
    simp at h
  case share.running =>
    obtain ⟨-, rfl, h⟩ := h
    simp at h
  case share.share =>
    obtain ⟨-, rfl, h⟩ := h
    rw [List.append_cancel_left_eq, List.cons_inj_right] at h
    exact (toDigits_append_inj rfl h).1
  case tmp.tmp =>
    obtain ⟨-, rfl, h⟩ := h
    rw [List.append_cancel_left_eq, List.cons_inj_right] at h
    obtain ⟨hfile, h⟩ := toDigits_append_inj rfl h
    exact ⟨hfile, (toDigits_append_inj rfl h).1⟩
  case piece.piece =>
    obtain ⟨rfl, h⟩ := h
    rw [List.append_cancel_left_eq] at h
    simpa [toDigits_injective.eq_iff] using h
  case secret.secret =>
    obtain ⟨-, h, -⟩ := h
    simpa [nodeFmt, toDigits_injective.eq_iff] using h

/-- No two files of the program are one file, whatever their indices. -/
theorem File.path_injective {x y : Index} {f g : File} (hx : IsIndex x) (hy : IsIndex y)
    (h : resolve (f.path x) = resolve (g.path y)) : x = y ∧ f = g := by
  apply place_injective
  rw [resolve_path hx, resolve_path hy] at h
  simp only [List.cons_append, List.nil_append, List.cons.injEq, true_and] at h
  obtain ⟨hname, hsub, hrest⟩ := h
  exact Prod.ext (name_injective hname) (Prod.ext hsub hrest)

end Files

end ShannonNet.Layout
