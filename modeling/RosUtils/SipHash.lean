/-
SipHash-2-4.

Section 2 of the paper defines the function over numbers below `2 ^ 64`: the message is parsed
into words, each word is mixed into a state of four words by rounds of SipRound, and the state
is folded into one word.  That definition is `Paper.sipHash`, for any number of rounds.

`Key.hash` is what the code does: whole words first, as the bytes come, then a last word made
of the tail and the length, and the steps of a round one after another on an array.

* `words_eq` — the words the code compresses are the words of the paper;
* `sipRound_toNat` — the interleaved steps are the paper's round, on every state;
* `hash_eq_sipHash` — the two functions are equal;
* `words_injective` — distinct messages, of any lengths, are distinct words.
-/
import RosUtils.LittleEndian
import RosUtils.ModWord
import Mathlib.Algebra.Order.Floor.Div

open LittleEndian ModWord

namespace SipHash

/-- The four words of the state, `[u64; 4]` in the code. -/
structure Quad (α : Type) where
  v0 : α
  v1 : α
  v2 : α
  v3 : α
  deriving DecidableEq

def Quad.map {α β : Type} (f : α → β) (v : Quad α) : Quad β := ⟨f v.v0, f v.v1, f v.v2, f v.v3⟩

/-! ### The paper -/

namespace Paper

/-- The number of words of a message. -/
def wordCount (m : List UInt8) : ℕ := (m.length + 1) ⌈/⌉ 8

/-- The bytes of the message, null bytes, and at the end of the last word the length modulo
256. -/
def byte (m : List UInt8) (k : ℕ) : ℕ :=
  if k < m.length then (m.getD k 0).toNat
  else if k + 1 = 8 * wordCount m then m.length % 256
  else 0

/-- The `i`-th word of a message, little-endian. -/
def word (m : List UInt8) (i : ℕ) : ℕ := ∑ j ∈ Finset.range 8, byte m (8 * i + j) * 256 ^ j

/-- Add, rotate and exclusive or, on two words. -/
def arx (r x y : ℕ) : ℕ × ℕ := (add 64 x y, rotl 64 r y ^^^ add 64 x y)

/-- SipRound: two columns side by side, their right words crossed over, and two columns
again. -/
def sipRound (v : Quad ℕ) : Quad ℕ :=
  let (a, b) := arx 13 v.v0 v.v1
  let (c, d) := arx 16 v.v2 v.v3
  let (e, b') := arx 17 c b
  let (f, d') := arx 21 (rotl 64 32 a) d
  ⟨f, b', rotl 64 32 e, d'⟩

/-- Initialization, from the words of the key. -/
def initialState (k₀ k₁ : ℕ) : Quad ℕ :=
  ⟨k₀ ^^^ 0x736f6d6570736575, k₁ ^^^ 0x646f72616e646f6d, k₀ ^^^ 0x6c7967656e657261,
    k₁ ^^^ 0x7465646279746573⟩

/-- Compression of a word, with `c` rounds. -/
def compress (c : ℕ) (v : Quad ℕ) (m : ℕ) : Quad ℕ :=
  let v := sipRound^[c] { v with v3 := v.v3 ^^^ m }
  { v with v0 := v.v0 ^^^ m }

/-- Finalization, with `d` rounds. -/
def finalize (d : ℕ) (v : Quad ℕ) : ℕ :=
  let v := sipRound^[d] { v with v2 := v.v2 ^^^ 0xff }
  v.v0 ^^^ v.v1 ^^^ v.v2 ^^^ v.v3

/-- The word of the key that starts at byte `i`. -/
def keyWord (key : Vector UInt8 16) (i : ℕ) : ℕ :=
  ∑ j ∈ Finset.range 8, (key.toList.getD (i + j) 0).toNat * 256 ^ j

/-- SipHash-c-d. -/
def sipHash (c d : ℕ) (key : Vector UInt8 16) (m : List UInt8) : ℕ :=
  finalize d <|
    ((List.range (wordCount m)).map (word m)).foldl (compress c)
      (initialState (keyWord key 0) (keyWord key 8))

theorem wordCount_eq (m : List UInt8) : wordCount m = m.length / 8 + 1 := by
  rw [wordCount, Nat.ceilDiv_eq_add_pred_div]
  omega

end Paper

/-! ### The code -/

/-- `INITIAL`. -/
def initial : Quad UInt64 :=
  ⟨0x736f6d6570736575, 0x646f72616e646f6d, 0x6c7967656e657261, 0x7465646279746573⟩

/-- `COMPRESSION_ROUNDS`. -/
def compressionRounds : ℕ := 2

/-- `FINALIZATION_ROUNDS`. -/
def finalizationRounds : ℕ := 4

/-- `Key`: the state that the hash starts from. -/
structure Key where
  state : Quad UInt64
  deriving DecidableEq

/-- `Key::new`. -/
def Key.new (bytes : Vector UInt8 16) : Key :=
  let k₀ := u64OfLe (bytes.toList.take 8)
  let k₁ := u64OfLe (bytes.toList.drop 8)
  ⟨⟨k₀ ^^^ initial.v0, k₁ ^^^ initial.v1, k₀ ^^^ initial.v2, k₁ ^^^ initial.v3⟩⟩

/-- `u64::rotate_left`. -/
def rotateLeft (x : UInt64) (n : ℕ) : UInt64 := ⟨x.toBitVec.rotateLeft n⟩

/-- `sip_round`, each line its left column and then its right. -/
def sipRound (v : Quad UInt64) : Quad UInt64 :=
  let v := { v with v0 := v.v0 + v.v1 }
  let v := { v with v2 := v.v2 + v.v3 }
  let v := { v with v1 := rotateLeft v.v1 13 }
  let v := { v with v3 := rotateLeft v.v3 16 }
  let v := { v with v1 := v.v1 ^^^ v.v0 }
  let v := { v with v3 := v.v3 ^^^ v.v2 }
  let v := { v with v0 := rotateLeft v.v0 32 }
  let v := { v with v2 := v.v2 + v.v1 }
  let v := { v with v0 := v.v0 + v.v3 }
  let v := { v with v1 := rotateLeft v.v1 17 }
  let v := { v with v3 := rotateLeft v.v3 21 }
  let v := { v with v1 := v.v1 ^^^ v.v2 }
  let v := { v with v3 := v.v3 ^^^ v.v0 }
  { v with v2 := rotateLeft v.v2 32 }

/-- `rounds` rounds of the loop `for _ in 0..rounds`. -/
def sipRounds : ℕ → Quad UInt64 → Quad UInt64
  | 0, v => v
  | rounds + 1, v => sipRounds rounds (sipRound v)

/-- `compress`. -/
def compress (v : Quad UInt64) (m : UInt64) : Quad UInt64 :=
  let v := { v with v3 := v.v3 ^^^ m }
  let v := sipRounds compressionRounds v
  { v with v0 := v.v0 ^^^ m }

/-- `finalize`. -/
def finalize (v : Quad UInt64) : Quad UInt64 :=
  let v := { v with v2 := v.v2 ^^^ 0xff }
  sipRounds finalizationRounds v

/-- `last_word`. -/
def lastWord (tail : List UInt8) (len : ℕ) : UInt64 :=
  let word := tail ++ List.replicate (8 - tail.length) 0
  u64OfLe (word.set 7 (UInt8.ofNat len))

/-- `slice::as_chunks::<8>`: the whole chunks, and what is left. -/
def asChunks (data : List UInt8) : List (List UInt8) × List UInt8 :=
  ((List.range (data.length / 8)).map fun i => (data.drop (8 * i)).take 8,
    data.drop (8 * (data.length / 8)))

/-- `Key::hash`. -/
def Key.hash (key : Key) (data : List UInt8) : UInt64 :=
  let (words, tail) := asChunks data
  let v := words.foldl (fun v word => compress v (u64OfLe word)) key.state
  let v := compress v (lastWord tail data.length)
  let v := finalize v
  v.v0 ^^^ v.v1 ^^^ v.v2 ^^^ v.v3

/-! ### Words -/

/-- The words that `Key::hash` compresses, in order. -/
def words (data : List UInt8) : List UInt64 :=
  (asChunks data).1.map u64OfLe ++ [lastWord (asChunks data).2 data.length]

/-- The bytes of the last word. -/
def lastBytes (tail : List UInt8) (len : ℕ) : List UInt8 :=
  (tail ++ List.replicate (8 - tail.length) 0).set 7 (UInt8.ofNat len)

section LastBytes

variable {tail : List UInt8} (ht : tail.length < 8) (len : ℕ)

include ht

theorem length_lastBytes : (lastBytes tail len).length = 8 := by
  rw [lastBytes, List.length_set, List.length_append, List.length_replicate]
  omega

/-- The tail stands in front of the length. -/
theorem take_lastBytes : (lastBytes tail len).take tail.length = tail := by
  rw [lastBytes, List.take_set_of_le (by omega), List.take_left]

theorem getElem?_lastBytes : (lastBytes tail len)[7]? = some (UInt8.ofNat len) := by
  have hlen := length_lastBytes ht len
  rw [lastBytes, List.length_set] at hlen
  rw [lastBytes, List.getElem?_set_self (by omega)]

end LastBytes

/-- A whole chunk of the message is a word of the paper. -/
theorem chunk_toNat {data : List UInt8} {i : ℕ} (hi : i < data.length / 8) :
    (u64OfLe ((data.drop (8 * i)).take 8)).toNat = Paper.word data i := by
  have hlen : ((data.drop (8 * i)).take 8).length = 8 := by
    rw [List.length_take, List.length_drop]
    omega
  rw [toNat_u64OfLe hlen, ofLe_eq_sum, hlen, Paper.word]
  refine Finset.sum_congr rfl fun j hj => ?_
  have hj : j < 8 := Finset.mem_range.mp hj
  have hin : 8 * i + j < data.length := by omega
  rw [Paper.byte, if_pos hin, List.getD_eq_getElem?_getD, List.getElem?_take_of_lt hj,
    List.getElem?_drop, ← List.getD_eq_getElem?_getD]

/-- The last word of the code is the last word of the paper. -/
theorem lastWord_toNat (data : List UInt8) :
    (lastWord (data.drop (8 * (data.length / 8))) data.length).toNat =
      Paper.word data (data.length / 8) := by
  have htail : (data.drop (8 * (data.length / 8))).length = data.length % 8 := by
    rw [List.length_drop]
    omega
  have hshort : (data.drop (8 * (data.length / 8))).length < 8 := by omega
  have hlen := length_lastBytes hshort data.length
  have hword : lastWord (data.drop (8 * (data.length / 8))) data.length =
    u64OfLe (lastBytes (data.drop (8 * (data.length / 8))) data.length) := rfl
  rw [hword, toNat_u64OfLe hlen, ofLe_eq_sum, hlen, Paper.word]
  refine Finset.sum_congr rfl fun j hj => ?_
  have hj : j < 8 := Finset.mem_range.mp hj
  congr 1
  rw [Paper.byte, Paper.wordCount_eq, List.getD_eq_getElem?_getD]
  by_cases h7 : j = 7
  · -- the byte of the length
    subst h7
    have hout : ¬ 8 * (data.length / 8) + 7 < data.length := by omega
    rw [if_neg hout, if_pos (by omega), getElem?_lastBytes hshort, Option.getD_some,
      UInt8.toNat_ofNat']
  rw [lastBytes, List.getElem?_set_ne (Ne.symm h7)]
  by_cases hin : j < data.length % 8
  · -- a byte of the tail
    rw [if_pos (by omega), List.getElem?_append_left (by omega), List.getElem?_drop,
      ← List.getD_eq_getElem?_getD]
  · -- a null byte
    rw [if_neg (by omega), if_neg (by omega), List.getElem?_append_right (by omega), htail,
      List.getElem?_replicate, if_pos (by omega)]
    rfl

/-- The code reads a message as the paper does. -/
theorem words_eq (data : List UInt8) :
    (words data).map UInt64.toNat = (List.range (Paper.wordCount data)).map (Paper.word data) := by
  rw [Paper.wordCount_eq, List.range_succ, List.map_append, words, List.map_append]
  congr 1
  · rw [asChunks, List.map_map, List.map_map]
    exact List.map_congr_left fun i hi => chunk_toNat (List.mem_range.mp hi)
  · exact congrArg (fun n => [n]) (lastWord_toNat data)

/-! ### Rounds -/

theorem rotateLeft_toNat {n : ℕ} (hn : n < 64) (x : UInt64) :
    (rotateLeft x n).toNat = rotl 64 n x.toNat :=
  toNat_rotl hn x.toBitVec

theorem add_toNat (x y : UInt64) : (x + y).toNat = add 64 x.toNat y.toNat :=
  UInt64.toNat_add x y

/-- The steps of the code make the paper's round. -/
theorem sipRound_toNat (v : Quad UInt64) :
    (sipRound v).map UInt64.toNat = Paper.sipRound (v.map UInt64.toNat) := by
  simp only [sipRound, Paper.sipRound, Paper.arx, Quad.map, add_toNat, UInt64.toNat_xor,
    rotateLeft_toNat (show 13 < 64 by omega), rotateLeft_toNat (show 16 < 64 by omega),
    rotateLeft_toNat (show 17 < 64 by omega), rotateLeft_toNat (show 21 < 64 by omega),
    rotateLeft_toNat (show 32 < 64 by omega)]

theorem sipRounds_toNat (rounds : ℕ) (v : Quad UInt64) :
    (sipRounds rounds v).map UInt64.toNat = Paper.sipRound^[rounds] (v.map UInt64.toNat) := by
  induction rounds generalizing v with
  | zero => rfl
  | succ rounds ih => rw [sipRounds, ih, sipRound_toNat, Function.iterate_succ_apply]

theorem compress_toNat (v : Quad UInt64) (m : UInt64) :
    (compress v m).map UInt64.toNat =
      Paper.compress compressionRounds (v.map UInt64.toNat) m.toNat := by
  have hrounds := sipRounds_toNat compressionRounds { v with v3 := v.v3 ^^^ m }
  simp only [Quad.map, UInt64.toNat_xor] at hrounds
  simp only [Paper.compress, Quad.map, compress, UInt64.toNat_xor, ← hrounds]

theorem finalize_toNat (v : Quad UInt64) :
    ((finalize v).v0 ^^^ (finalize v).v1 ^^^ (finalize v).v2 ^^^ (finalize v).v3).toNat =
      Paper.finalize finalizationRounds (v.map UInt64.toNat) := by
  have hrounds := sipRounds_toNat finalizationRounds { v with v2 := v.v2 ^^^ 0xff }
  simp only [Quad.map, UInt64.toNat_xor] at hrounds
  have hff : (0xff : UInt64).toNat = 0xff := rfl
  rw [hff] at hrounds
  simp only [Paper.finalize, Quad.map, finalize, UInt64.toNat_xor, ← hrounds]

/-- Compressing words one after another commutes with reading them as numbers. -/
theorem foldl_compress_toNat (ws : List UInt64) (v : Quad UInt64) :
    (ws.foldl compress v).map UInt64.toNat =
      (ws.map UInt64.toNat).foldl (Paper.compress compressionRounds) (v.map UInt64.toNat) := by
  induction ws generalizing v with
  | nil => rfl
  | cons w ws ih => rw [List.foldl_cons, ih, compress_toNat, List.map_cons, List.foldl_cons]

/-! ### The hash -/

theorem keyWord_toNat (key : Vector UInt8 16) :
    (u64OfLe (key.toList.take 8)).toNat = Paper.keyWord key 0 ∧
      (u64OfLe (key.toList.drop 8)).toNat = Paper.keyWord key 8 := by
  have hlen : key.toList.length = 16 := key.length_toList
  have htake : (key.toList.take 8).length = 8 := by rw [List.length_take, hlen]; rfl
  have hdrop : (key.toList.drop 8).length = 8 := by rw [List.length_drop, hlen]
  constructor
  · rw [toNat_u64OfLe htake, ofLe_eq_sum, htake, Paper.keyWord]
    refine Finset.sum_congr rfl fun j hj => ?_
    rw [List.getD_eq_getElem?_getD, List.getElem?_take_of_lt (Finset.mem_range.mp hj),
      ← List.getD_eq_getElem?_getD, Nat.zero_add]
  · rw [toNat_u64OfLe hdrop, ofLe_eq_sum, hdrop, Paper.keyWord]
    refine Finset.sum_congr rfl fun j _ => ?_
    rw [List.getD_eq_getElem?_getD, List.getElem?_drop, ← List.getD_eq_getElem?_getD]

/-- The state of a key is what the paper starts from. -/
theorem new_toNat (key : Vector UInt8 16) :
    (Key.new key).state.map UInt64.toNat =
      Paper.initialState (Paper.keyWord key 0) (Paper.keyWord key 8) := by
  obtain ⟨hlow, hhigh⟩ := keyWord_toNat key
  simp only [Key.new, Quad.map, UInt64.toNat_xor, hlow, hhigh]
  rfl

theorem hash_eq (key : Key) (data : List UInt8) :
    key.hash data =
      let v := finalize ((words data).foldl compress key.state)
      v.v0 ^^^ v.v1 ^^^ v.v2 ^^^ v.v3 := by
  simp only [Key.hash, words, List.foldl_append, List.foldl_map, List.foldl_cons, List.foldl_nil]

/-- **The code computes SipHash-2-4**, for every key and every message. -/
theorem hash_eq_sipHash (key : Vector UInt8 16) (data : List UInt8) :
    ((Key.new key).hash data).toNat = Paper.sipHash 2 4 key data := by
  rw [hash_eq, finalize_toNat, foldl_compress_toNat, words_eq, new_toNat]
  rfl

-- the key and the message of the paper's Appendix A
example : (Key.new (Vector.ofFn fun i => UInt8.ofNat i)).hash ((List.range 15).map UInt8.ofNat) =
    0xa129ca6149be45e5 := by
  decide +kernel

/-! ### Distinct messages -/

theorem chunks_flatten (data : List UInt8) (n : ℕ) :
    ((List.range n).map fun i => (data.drop (8 * i)).take 8).flatten = data.take (8 * n) := by
  induction n with
  | zero => rfl
  | succ n ih =>
    rw [List.range_succ, List.map_append, List.flatten_append, ih, Nat.mul_succ, List.take_add]
    exact congrArg _ (List.append_nil _)

/-- The chunks and the tail make the message. -/
theorem asChunks_join (data : List UInt8) :
    (asChunks data).1.flatten ++ (asChunks data).2 = data := by
  rw [asChunks, chunks_flatten, List.take_append_drop]

theorem length_chunk {data c : List UInt8} (hc : c ∈ (asChunks data).1) : c.length = 8 := by
  obtain ⟨i, hi, rfl⟩ := List.mem_map.mp hc
  have hi : i < data.length / 8 := List.mem_range.mp hi
  rw [List.length_take, List.length_drop]
  omega

theorem length_tail (data : List UInt8) : (asChunks data).2.length = data.length % 8 := by
  rw [asChunks, List.length_drop]
  omega

theorem length_words (data : List UInt8) : (words data).length = data.length / 8 + 1 := by
  rw [words, List.length_append, List.length_map, asChunks, List.length_map, List.length_range]
  rfl

/-- The chunks are told from their words. -/
theorem chunks_injective {cs cs' : List (List UInt8)} (hcs : ∀ c ∈ cs, c.length = 8)
    (hcs' : ∀ c ∈ cs', c.length = 8) (h : cs.map u64OfLe = cs'.map u64OfLe) : cs = cs' := by
  induction cs generalizing cs' with
  | nil => exact (List.map_eq_nil_iff.mp h.symm).symm
  | cons c cs ih =>
    obtain _ | ⟨c', cs'⟩ := cs'
    · cases h
    rw [List.map_cons, List.map_cons, List.cons.injEq] at h
    rw [List.forall_mem_cons] at hcs hcs'
    rw [u64OfLe_injective hcs.1 hcs'.1 h.1, ih hcs.2 hcs'.2 h.2]

/-- The last word tells the length modulo 256, and the tail once its length is known. -/
theorem lastWord_injective {tail tail' : List UInt8} {len len' : ℕ} (ht : tail.length < 8)
    (ht' : tail'.length < 8) (h : lastWord tail len = lastWord tail' len') :
    len % 256 = len' % 256 ∧ (tail.length = tail'.length → tail = tail') := by
  have hbytes : lastBytes tail len = lastBytes tail' len' :=
    u64OfLe_injective (length_lastBytes ht len) (length_lastBytes ht' len') h
  constructor
  · have hbyte := getElem?_lastBytes ht len
    rw [hbytes, getElem?_lastBytes ht' len', Option.some_inj] at hbyte
    have hnat := congrArg UInt8.toNat hbyte
    rw [UInt8.toNat_ofNat', UInt8.toNat_ofNat'] at hnat
    exact hnat.symm
  · intro hsame
    rw [← take_lastBytes ht len, hbytes, hsame, take_lastBytes ht' len']

/-- **Distinct messages are distinct words.**  What the hash compresses tells the message, of
whatever length, although only the length modulo 256 is in it: the number of words gives the
length up to its last three bits, and the byte that is stored gives these. -/
theorem words_injective :
    (∀ (key : Key) (data : List UInt8),
      key.hash data =
        let v := finalize ((words data).foldl compress key.state)
        v.v0 ^^^ v.v1 ^^^ v.v2 ^^^ v.v3) ∧
    ∀ a b : List UInt8, a ≠ b → words a ≠ words b := by
  refine ⟨hash_eq, fun a b hne h => hne ?_⟩
  have htail : ∀ data, (asChunks data).2.length < 8 := by
    intro data
    rw [length_tail]
    omega
  obtain ⟨hchunks, hlast⟩ := List.append_inj' h rfl
  have hchunks := chunks_injective (fun _ => length_chunk) (fun _ => length_chunk) hchunks
  obtain ⟨hbyte, hsame⟩ :=
    lastWord_injective (htail a) (htail b) (List.singleton_inj.mp hlast)
  have hcount := congrArg List.length h
  rw [length_words, length_words] at hcount
  have hlen : a.length = b.length := by omega
  have htails : (asChunks a).2 = (asChunks b).2 := hsame (by rw [length_tail, length_tail, hlen])
  rw [← asChunks_join a, hchunks, htails, asChunks_join b]

/-- The empty message and 256 null bytes store the same length. -/
theorem words_injective_nulls :
    ([] : List UInt8) ≠ List.replicate 256 0 ∧ words [] ≠ words (List.replicate 256 0) := by
  have hne : ([] : List UInt8) ≠ List.replicate 256 0 := by
    intro h
    cases h
  exact ⟨hne, words_injective.2 _ _ hne⟩

end SipHash
