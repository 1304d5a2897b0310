import StreamEP.Kv.LoaderProgress
import StreamEP.Lib.HashChain

/-!
# Page hashes identify prefixes

The keys under which `disagmoe/kv_loader.py` looks up the cache of a prompt are digests of a chain
over its full pages. Two prompts share a key exactly when they agree up to and including that page,
as long as `sha256` has no collision among what the two chains hash: the chain is seeded with the
empty string, so that the first page is hashed as 64 bytes and every later page as 96.

## Main results

* `pageChainHashesHex_eq_ok`
* `pageChainHashes_identify`
-/

namespace StreamEP

/-- `page_chain_hashes` -/
def pageChainHashesHex (sha256 : List UInt8 → List UInt8) (tokenIds : List ℤ) :
    Except String (List String) := do
  let digests ← pageChainHashes sha256 tokenIds
  return digests.map hex

def IsTokenId (x : ℤ) : Prop := 0 ≤ x ∧ x < 2 ^ 32

instance (x : ℤ) : Decidable (IsTokenId x) := inferInstanceAs (Decidable (_ ∧ _))

def pageBytes (page : List ℤ) : List UInt8 := page.flatMap fun x => u32le x.toNat

/-- What `page_chain_hashes` hashes, page by page. -/
def hashInputs (sha256 : List UInt8 → List UInt8) (tokenIds : List ℤ) : List (List UInt8) :=
  HashChain.inputs sha256 pageBytes [] (fullPages tokenIds)

/-! ### Bytes and digits -/

theorem u32le_injOn {x y : ℤ} (hx : IsTokenId x) (hy : IsTokenId y)
    (h : u32le x.toNat = u32le y.toNat) : x = y := by
  obtain ⟨hx0, hx⟩ := hx
  obtain ⟨hy0, hy⟩ := hy
  simp only [u32le, List.cons.injEq, and_true] at h
  obtain ⟨h0, h1, h2, h3⟩ := h
  have hbyte : ∀ {m n : ℕ}, UInt8.ofNat m = UInt8.ofNat n → m % 256 = n % 256 := by
    intro m n hmn
    simpa using congrArg UInt8.toNat hmn
  have b0 := hbyte h0
  have b1 := hbyte h1
  have b2 := hbyte h2
  have b3 := hbyte h3
  omega

theorem length_pageBytes (page : List ℤ) : (pageBytes page).length = 4 * page.length := by
  induction page with
  | nil => rfl
  | cons x page ih =>
    rw [pageBytes, List.flatMap_cons, List.length_append, ← pageBytes, ih, List.length_cons,
      show (u32le x.toNat).length = 4 from rfl]
    omega

theorem pageBytes_injOn {p q : List ℤ} (hp : ∀ x ∈ p, IsTokenId x) (hq : ∀ x ∈ q, IsTokenId x)
    (h : pageBytes p = pageBytes q) : p = q := by
  induction p generalizing q with
  | nil =>
    have hlen := congrArg List.length h
    rw [length_pageBytes, length_pageBytes, List.length_nil] at hlen
    exact (List.length_eq_zero_iff.mp (by omega)).symm
  | cons x p ih =>
    cases q with
    | nil =>
      have hlen := congrArg List.length h
      rw [length_pageBytes, length_pageBytes, List.length_nil, List.length_cons] at hlen
      omega
    | cons y q =>
      obtain ⟨hx, hp⟩ := List.forall_mem_cons.mp hp
      obtain ⟨hy, hq⟩ := List.forall_mem_cons.mp hq
      obtain ⟨hhead, htail⟩ := List.append_inj
        (show u32le x.toNat ++ pageBytes p = u32le y.toNat ++ pageBytes q from h) rfl
      rw [u32le_injOn hx hy hhead, ih hp hq htail]

theorem digitChar_injOn : ∀ m < 16, ∀ n < 16, Nat.digitChar m = Nat.digitChar n → m = n := by
  decide

theorem hex_injective : Function.Injective hex := by
  intro d e h
  have hchars := String.ofList_injective h
  clear h
  induction d generalizing e with
  | nil => cases e with
    | nil => rfl
    | cons b e => simp at hchars
  | cons a d ih => cases e with
    | nil => simp at hchars
    | cons b e =>
      simp only [List.flatMap_cons, List.cons_append, List.nil_append, List.cons.injEq] at hchars
      obtain ⟨hhigh, hlow, hrest⟩ := hchars
      have ha := a.toNat_lt
      have hb := b.toNat_lt
      have hdiv := digitChar_injOn _ (by omega) _ (by omega) hhigh
      have hmod := digitChar_injOn _ (by omega) _ (by omega) hlow
      have hab : a = b := UInt8.toNat_inj.mp (by omega)
      rw [hab, ih hrest]

/-! ### Full pages -/

theorem length_fullPages (tokenIds : List ℤ) :
    (fullPages tokenIds).length = tokenIds.length / pageTokens := by
  rw [fullPages, List.length_map, List.length_range]

theorem getElem?_fullPages {tokenIds : List ℤ} {i : ℕ} (hi : i < tokenIds.length / pageTokens) :
    (fullPages tokenIds)[i]? =
      some ((tokenIds.drop (i * pageTokens)).take pageTokens) := by
  rw [fullPages, List.getElem?_map, List.getElem?_range hi, Option.map_some]

theorem mem_of_mem_fullPages {tokenIds page : List ℤ} (h : page ∈ fullPages tokenIds) :
    page.length = pageTokens ∧ ∀ x ∈ page, x ∈ tokenIds := by
  obtain ⟨i, hi, rfl⟩ := List.mem_map.mp h
  rw [List.mem_range, Nat.lt_iff_add_one_le, Nat.le_div_iff_mul_le (by decide)] at hi
  constructor
  · rw [List.length_take, List.length_drop]
    rw [Nat.add_mul] at hi
    omega
  · intro x hx
    exact List.mem_of_mem_drop (List.mem_of_mem_take hx)

/-- The pages up to one are the tokens up to its end. -/
theorem flatten_take_fullPages {tokenIds : List ℤ} {n : ℕ} (hn : n ≤ tokenIds.length / pageTokens) :
    ((fullPages tokenIds).take n).flatten = tokenIds.take (pageTokens * n) := by
  induction n with
  | zero => rw [List.take_zero, Nat.mul_zero, List.take_zero, List.flatten_nil]
  | succ n ih =>
    rw [List.take_add_one, getElem?_fullPages hn, List.flatten_append, ih (Nat.le_of_succ_le hn),
      Nat.mul_succ, List.take_add, Nat.mul_comm n pageTokens]
    simp

theorem fullPages_take (tokenIds : List ℤ) (n : ℕ) :
    fullPages (tokenIds.take n) = (fullPages tokenIds).take (n / pageTokens) := by
  have hlen : (tokenIds.take n).length / pageTokens =
      min (n / pageTokens) (tokenIds.length / pageTokens) := by
    rw [List.length_take, pageTokens]
    omega
  rw [fullPages, fullPages, ← List.map_take, List.take_range, hlen]
  refine List.map_congr_left fun i hi => ?_
  rw [List.mem_range, pageTokens] at hi
  rw [List.drop_take, List.take_take, pageTokens, Nat.min_eq_left (by omega)]

/-! ### The chain -/

/-- **The hashes are the digests of the chain.** They exist when every id fits 32 bits. -/
theorem chainDigests_eq_ok {sha256 : List UInt8 → List UInt8} {digest : List UInt8}
    {pages : List (List ℤ)} (hpages : ∀ page ∈ pages, ∀ x ∈ page, IsTokenId x) :
    chainDigests sha256 digest pages =
      .ok ((HashChain.inputs sha256 pageBytes digest pages).map sha256) := by
  induction pages generalizing digest with
  | nil => rfl
  | cons page pages ih =>
    obtain ⟨hpage, hpages⟩ := List.forall_mem_cons.mp hpages
    have hbytes : structPack page = .ok (pageBytes page) := structPack_eq_ok.mpr ⟨hpage, rfl⟩
    rw [chainDigests, hbytes, ok_bind, ih hpages, ok_bind]
    rfl

theorem pageChainHashesHex_eq_ok (sha256 : List UInt8 → List UInt8) {tokenIds : List ℤ}
    (h : ∀ x ∈ tokenIds, IsTokenId x) :
    pageChainHashesHex sha256 tokenIds =
      .ok ((hashInputs sha256 tokenIds).map fun m => hex (sha256 m)) := by
  have hpages : ∀ page ∈ fullPages tokenIds, ∀ x ∈ page, IsTokenId x := fun page hpage x hx =>
    h x ((mem_of_mem_fullPages hpage).2 x hx)
  rw [pageChainHashesHex, pageChainHashes, chainDigests_eq_ok hpages, ok_bind]
  exact congrArg Except.ok List.map_map

theorem length_hashInputs (sha256 : List UInt8 → List UInt8) (tokenIds : List ℤ) :
    (hashInputs sha256 tokenIds).length = tokenIds.length / pageTokens := by
  rw [hashInputs, HashChain.length_inputs, length_fullPages]

theorem hashInputs_take (sha256 : List UInt8 → List UInt8) (tokenIds : List ℤ) (n : ℕ) :
    hashInputs sha256 (tokenIds.take n) = (hashInputs sha256 tokenIds).take (n / pageTokens) := by
  rw [hashInputs, fullPages_take, HashChain.inputs_take, hashInputs]

theorem hashInputs_take_fullPages (sha256 : List UInt8 → List UInt8) (tokenIds : List ℤ) :
    hashInputs sha256 (tokenIds.take (pageTokens * (tokenIds.length / pageTokens))) =
      hashInputs sha256 tokenIds := by
  rw [hashInputs_take, Nat.mul_div_cancel_left _ (by decide),
    List.take_of_length_le (length_hashInputs sha256 tokenIds).le]

/-- Prompts that agree up to a page hash the same at it. -/
theorem getElem?_hashInputs_of_take {sha256 : List UInt8 → List UInt8} {a b : List ℤ} {i : ℕ}
    (h : a.take (pageTokens * (i + 1)) = b.take (pageTokens * (i + 1))) :
    (hashInputs sha256 a)[i]? = (hashInputs sha256 b)[i]? := by
  have hpos : 0 < pageTokens := by decide
  have htake := congrArg (hashInputs sha256) h
  rw [hashInputs_take, hashInputs_take, Nat.mul_div_cancel_left _ hpos] at htake
  have hget := congrArg (·[i]?) htake
  simpa [List.getElem?_take] using hget

/-- What two prompts both hash stands at one position, and they agree up to it. -/
theorem take_eq_of_hashInputs {sha256 : List UInt8 → List UInt8} {a b : List ℤ}
    (hdigest : ∀ m, (sha256 m).length = 32)
    (hinj : Set.InjOn sha256 {m | m ∈ hashInputs sha256 a ∨ m ∈ hashInputs sha256 b})
    (ha : ∀ x ∈ a, IsTokenId x) (hb : ∀ x ∈ b, IsTokenId x) {i j : ℕ} {m : List UInt8}
    (hi : (hashInputs sha256 a)[i]? = some m) (hj : (hashInputs sha256 b)[j]? = some m) :
    i = j ∧ a.take (pageTokens * (i + 1)) = b.take (pageTokens * (i + 1)) := by
  have hpage : ∀ page, page ∈ fullPages a ∨ page ∈ fullPages b →
      page.length = pageTokens ∧ ∀ x ∈ page, IsTokenId x := by
    rintro page (hpage | hpage)
    · obtain ⟨hlen, hmem⟩ := mem_of_mem_fullPages hpage
      exact ⟨hlen, fun x hx => ha x (hmem x hx)⟩
    · obtain ⟨hlen, hmem⟩ := mem_of_mem_fullPages hpage
      exact ⟨hlen, fun x hx => hb x (hmem x hx)⟩
  have hwidth : ∀ page, page ∈ fullPages a ∨ page ∈ fullPages b →
      (pageBytes page).length = 4 * pageTokens := fun page hp => by
    rw [length_pageBytes, (hpage page hp).1]
  obtain ⟨rfl, htake⟩ := HashChain.take_eq_of_inputs hdigest (by simp) hinj hwidth
    (fun p hp q hq heq => pageBytes_injOn (hpage p hp).2 (hpage q hq).2 heq) hi hj
  refine ⟨rfl, ?_⟩
  have hia := (List.getElem?_eq_some_iff.mp hi).1
  have hib := (List.getElem?_eq_some_iff.mp hj).1
  rw [length_hashInputs] at hia hib
  rw [← flatten_take_fullPages hia, ← flatten_take_fullPages hib, htake]

/-! ### Hashes identify prefixes -/

/-- **Page hashes identify prefixes.** The hashes of two prompts at two full pages are equal exactly
when the pages have the same index and the prompts agree up to and including them; and the hashes
of a prefix are a prefix of the hashes, made from its full pages only. -/
theorem pageChainHashes_identify {sha256 : List UInt8 → List UInt8} {a b : List ℤ}
    (hdigest : ∀ m, (sha256 m).length = 32)
    (hinj : Set.InjOn sha256 {m | m ∈ hashInputs sha256 a ∨ m ∈ hashInputs sha256 b})
    (ha : ∀ x ∈ a, IsTokenId x) (hb : ∀ x ∈ b, IsTokenId x) :
    ∃ hashesA hashesB, pageChainHashesHex sha256 a = .ok hashesA ∧
      pageChainHashesHex sha256 b = .ok hashesB ∧
      hashesA.length = a.length / 16 ∧ hashesB.length = b.length / 16 ∧
      (∀ i j : ℕ, i < a.length / 16 → j < b.length / 16 →
        (hashesA[i]? = hashesB[j]? ↔
          i = j ∧ a.take (16 * (i + 1)) = b.take (16 * (i + 1)))) ∧
      ∀ p, p <+: a → ∃ hashes, pageChainHashesHex sha256 p = .ok hashes ∧
        hashes <+: hashesA ∧ hashes.length = p.length / 16 ∧
        pageChainHashesHex sha256 (p.take (16 * (p.length / 16))) = .ok hashes := by
  refine ⟨_, _, pageChainHashesHex_eq_ok sha256 ha, pageChainHashesHex_eq_ok sha256 hb, ?_, ?_, ?_,
    ?_⟩
  · rw [List.length_map, length_hashInputs, pageTokens]
  · rw [List.length_map, length_hashInputs, pageTokens]
  · intro i j hi hj
    rw [List.getElem?_map, List.getElem?_map]
    have hia : i < (hashInputs sha256 a).length := by rwa [length_hashInputs]
    have hjb : j < (hashInputs sha256 b).length := by rwa [length_hashInputs]
    constructor
    · intro heq
      rw [List.getElem?_eq_getElem hia, List.getElem?_eq_getElem hjb] at heq
      have hmm := hinj (Or.inl (List.getElem_mem hia)) (Or.inr (List.getElem_mem hjb))
        (hex_injective (Option.some.inj heq))
      exact take_eq_of_hashInputs hdigest hinj ha hb (List.getElem?_eq_getElem hia)
        (by rw [List.getElem?_eq_getElem hjb, hmm])
    · rintro ⟨rfl, htake⟩
      rw [getElem?_hashInputs_of_take htake]
  · intro p hp
    have hids : ∀ x ∈ p, IsTokenId x := fun x hx => ha x (hp.subset hx)
    refine ⟨_, pageChainHashesHex_eq_ok sha256 hids, ?_, ?_, ?_⟩
    · rw [List.prefix_iff_eq_take.mp hp, hashInputs_take]
      exact (List.take_prefix _ _).map _
    · rw [List.length_map, length_hashInputs, pageTokens]
    · rw [pageChainHashesHex_eq_ok sha256 fun x hx => hids x (List.mem_of_mem_take hx)]
      exact congrArg (fun l => Except.ok (l.map fun m => hex (sha256 m)))
        (hashInputs_take_fullPages sha256 p)

/-- A hash of the length and the last byte. -/
def lastByteHash (m : List UInt8) : List UInt8 :=
  UInt8.ofNat m.length :: m.getLastD 0 :: List.replicate 30 0

/-- Two prompts of two pages that share the first one, and a hash without a collision among their
pages. -/
theorem pageChainHashes_identify_two_prompts :
    ∃ a b : List ℤ,
      Set.InjOn lastByteHash {m | m ∈ hashInputs lastByteHash a ∨ m ∈ hashInputs lastByteHash b} ∧
      ∃ hashesA hashesB, pageChainHashesHex lastByteHash a = .ok hashesA ∧
        pageChainHashesHex lastByteHash b = .ok hashesB ∧
        hashesA[0]? = hashesB[0]? ∧ hashesA[1]? ≠ hashesB[1]? := by
  let a : List ℤ := List.replicate 32 7
  let b : List ℤ := List.replicate 16 7 ++ List.replicate 16 (2 ^ 24)
  have hall : ∀ m ∈ hashInputs lastByteHash a ++ hashInputs lastByteHash b,
      ∀ n ∈ hashInputs lastByteHash a ++ hashInputs lastByteHash b,
        lastByteHash m = lastByteHash n → m = n := by
    decide +kernel
  have hinj : Set.InjOn lastByteHash
      {m | m ∈ hashInputs lastByteHash a ∨ m ∈ hashInputs lastByteHash b} := by
    intro m hm n hn
    exact hall m (List.mem_append.mpr hm) n (List.mem_append.mpr hn)
  obtain ⟨hashesA, hashesB, hA, hB, -, -, hiff, -⟩ :=
    pageChainHashes_identify (fun m => rfl) hinj (by decide) (by decide)
  refine ⟨a, b, hinj, hashesA, hashesB, hA, hB, ?_, ?_⟩
  · exact (hiff 0 0 (by decide) (by decide)).mpr (by decide)
  · intro heq
    exact absurd ((hiff 1 1 (by decide) (by decide)).mp heq).2 (by decide)

end StreamEP
