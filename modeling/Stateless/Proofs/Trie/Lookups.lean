import Mathlib.Data.Fintype.Pigeonhole
import Mathlib.Data.Fintype.Prod
import Stateless.Proofs.Account
import Stateless.Proofs.NodeSet.Recording

/-!
# How many nodes a verification looks up

Between two lookups a walk passes a nibble of its key, except at an idle node: one whose way to the
next hash is a run of extensions with empty fragments, which the decoder accepts. A verification
therefore looks up at most one node more than its key has nibbles, apart from the idle ones
(`verify_lookups`). A lookup that finds nothing counts as well. Idle nodes are looked up beyond that,
and where one refers to itself there is no end to it (`verify_idle`).

A walk is determined by the hash that it looks up and the nibbles that remain, so a walk with more
lookups than there are such pairs repeats itself. Only a walk that never ends is therefore reported
as endless.
-/

namespace Stateless

/-! ## Idle nodes -/

/-- Whether the way through a node comes to a hash without passing a nibble. -/
def Trie.idle : Trie → Bool
  | .hidden _ => true
  | .extension f c _ => f.isEmpty && c.idle
  | _ => false

/-- Whether the visited node is idle. -/
def Visit.idle (v : Visit) : Bool :=
  match Trie.decode v.blob with
  | .ok t => t.idle
  | .error _ => false

/-- Whether a verification ends because a node is missing. -/
def Verification.misses (v : Verification) : Bool :=
  match v.outcome with
  | .error (.error (.missing ..)) => true
  | _ => false

/-- How many nodes a verification looks up: those that it visits, and the one that is missing. -/
def Verification.lookups (v : Verification) : Nat := v.visited.length + v.misses.toNat

/-- A node that is visited first is one more lookup. -/
theorem Verification.lookups_cons (v : Verification) (visit : Visit) :
    { v with visited := visit :: v.visited }.lookups = v.lookups + 1 :=
  Nat.add_right_comm v.visited.length 1 v.misses.toNat

/-- A way to a hash uses up the nibbles that it passes, and at least one if the node is not idle. -/
theorem Trie.descend_lookUp {t : Trie} {matched remaining m r : Path} {h : Word}
    (hd : t.descend matched remaining = .ok (.lookUp h m r)) :
    r.length + (if t.idle then 0 else 1) ≤ remaining.length := by
  induction t generalizing matched remaining with
  | empty => cases hd
  | hidden w =>
    cases hd
    exact le_refl _
  | leaf f v mem =>
    rw [descend] at hd
    split at hd
    · cases hd
    · split at hd
      · obtain ⟨key, -, hd⟩ := exists_of_bind_eq_ok hd
        cases hd
      · cases hd
  | extension f c mem ih =>
    rw [descend] at hd
    split at hd
    · cases hd
    · split at hd
      · next hst =>
        obtain ⟨passed, -, hd⟩ := exists_of_bind_eq_ok hd
        have hrest := ih hd
        have hsplit := congrArg List.length (Path.append_drop_of_startsWith hst)
        simp only [List.length_append, Path.length_toList] at hsplit
        cases hf : f.isEmpty with
        | true =>
          rw [idle, hf, Bool.true_and]
          omega
        | false =>
          have hpos : 0 < f.length :=
            List.length_pos_iff.2 fun hnil => by simp [Path.isEmpty, hnil] at hf
          rw [idle, hf, Bool.false_and, if_neg Bool.false_ne_true]
          omega
      · cases hd
  | branch cs v mem ih =>
    rw [descend] at hd
    split at hd
    · split at hd <;> cases hd
    · next i rest hu =>
      split at hd
      · cases hd
      · obtain ⟨passed, -, hd⟩ := exists_of_bind_eq_ok hd
        have hrest := ih i hd
        have hsplit := congrArg List.length (Path.uncons_eq_some_iff.1 hu)
        simp only [List.length_cons, Path.length_toList] at hsplit
        have hidle : (branch cs v mem).idle = false := rfl
        rw [hidle, if_neg Bool.false_ne_true]
        omega

/-! ## From one lookup to the next -/

/-- What a walk is about when it looks a node up. -/
structure Lookup where
  /-- The hash of the node. -/
  digest : Word
  /-- The part of the key that was passed. -/
  matched : Path
  /-- The part of the key that remains. -/
  remaining : Path

namespace Lookup

variable {source : NodeSource} {l l' : Lookup} {n : Nat}

/-- The nibbles of the key. -/
def key (l : Lookup) : List Nibble := l.matched.toList ++ l.remaining.toList

/-- The walk from a lookup on. -/
def walk (source : NodeSource) (fuel : Nat) (l : Lookup) : Verification :=
  Stateless.walk source fuel l.digest l.matched l.remaining

/-- The next lookup, if the node leads to one. -/
def next? (source : NodeSource) (l : Lookup) : Option Lookup :=
  match source l.digest with
  | none => none
  | some blob =>
    match Trie.decode blob with
    | .error _ => none
    | .ok node =>
      match node.descend l.matched l.remaining with
      | .ok (.lookUp h m r) => some ⟨h, m, r⟩
      | _ => none

/-- The lookup that comes after `n` others, if there are so many. -/
def later? (source : NodeSource) : Nat → Lookup → Option Lookup
  | 0, l => some l
  | n + 1, l => (l.next? source).bind (later? source n)

/-- The next lookup is about the same key, of which no more remains, and less after a node that is
not idle. -/
theorem next?_eq_some (h : l.next? source = some l') :
    ∃ blob, source l.digest = some blob ∧ l'.key = l.key ∧
      l'.remaining.length + (if Visit.idle ⟨l.matched, l.digest, blob⟩ then 0 else 1) ≤
        l.remaining.length ∧
      ∀ fuel, l.walk source (fuel + 1) = { l'.walk source fuel with
        visited := ⟨l.matched, l.digest, blob⟩ :: (l'.walk source fuel).visited } := by
  rw [next?] at h
  cases hsrc : source l.digest with
  | none =>
    simp only [hsrc] at h
    cases h
  | some blob =>
    simp only [hsrc] at h
    cases hdec : Trie.decode blob with
    | error e =>
      simp only [hdec] at h
      cases h
    | ok node =>
      simp only [hdec] at h
      split at h
      · next w m r hdesc =>
        obtain rfl := Option.some.inj h
        refine ⟨blob, rfl, Trie.descend_spells hdesc, ?_, fun fuel => ?_⟩
        · rw [Visit.idle, hdec]
          exact Trie.descend_lookUp hdesc
        · rw [walk, Stateless.walk, hsrc]
          simp only [hdec, hdesc]
          rfl
      · cases h

/-- A walk without a next lookup ends with the one that it makes. -/
theorem walk_of_last (h : l.next? source = none) :
    (l.walk source (n + 1)).lookups = 1 ∧
      (l.walk source (n + 1)).outcome ≠ .error (.error .endless) := by
  rw [next?] at h
  rw [walk, Stateless.walk]
  cases hsrc : source l.digest with
  | none => simp [Verification.lookups, Verification.misses]
  | some blob =>
    simp only [hsrc] at h
    cases hdec : Trie.decode blob with
    | error e => simp [hdec, Verification.lookups, Verification.misses]
    | ok node =>
      simp only [hdec] at h ⊢
      split at h
      · cases h
      · next hlast =>
        split
        · simp [Verification.lookups, Verification.misses]
        · simp [Verification.lookups, Verification.misses]
        · simp [Verification.lookups, Verification.misses]
        · simp [Verification.lookups, Verification.misses]
        · next w m r hdesc => exact absurd hdesc (hlast w m r)

/-- The nodes that a walk looks up, apart from the idle ones, are at most one more than the nibbles
that remain. -/
theorem lookups_le (l : Lookup) : (l.walk source n).lookups ≤
    l.remaining.length + 1 + (l.walk source n).visited.countP Visit.idle := by
  induction n generalizing l with
  | zero => exact Nat.zero_le _
  | succ n ih =>
    cases hnext : l.next? source with
    | none =>
      have hone := (walk_of_last (n := n) hnext).1
      omega
    | some l' =>
      obtain ⟨blob, -, -, hless, hwalk⟩ := next?_eq_some hnext
      have hrest := ih l'
      rw [hwalk, Verification.lookups_cons, List.countP_cons]
      split at hless
      · next hidle =>
        rw [if_pos hidle]
        omega
      · omega

/-! ## Walks that do not end -/

/-- A walk does not end if there are more lookups than it may make. It then makes all that it may. -/
theorem walk_endless_iff : (l.walk source n).outcome = .error (.error .endless) ↔
    (l.later? source n).isSome = true := by
  induction n generalizing l with
  | zero => exact ⟨fun _ => rfl, fun _ => rfl⟩
  | succ n ih =>
    rw [later?]
    cases hnext : l.next? source with
    | none => simp [(walk_of_last (n := n) hnext).2]
    | some l' =>
      obtain ⟨blob, -, -, -, hwalk⟩ := next?_eq_some hnext
      rw [hwalk]
      exact ih

theorem length_visited_of_endless (h : (l.walk source n).outcome = .error (.error .endless)) :
    (l.walk source n).visited.length = n := by
  induction n generalizing l with
  | zero => rfl
  | succ n ih =>
    cases hnext : l.next? source with
    | none => exact absurd h (walk_of_last hnext).2
    | some l' =>
      obtain ⟨blob, -, -, -, hwalk⟩ := next?_eq_some hnext
      rw [hwalk] at h ⊢
      rw [List.length_cons, ih h]

theorem later?_add (a b : Nat) (l : Lookup) :
    l.later? source (a + b) = (l.later? source a).bind (later? source b) := by
  induction a generalizing l with
  | zero => rw [Nat.zero_add, later?, Option.bind_some]
  | succ a ih =>
    rw [Nat.add_right_comm, later?, later?, Option.bind_assoc]
    exact congrArg (Option.bind (l.next? source)) (funext ih)

theorem later?_key (h : l.later? source n = some l') : l'.key = l.key := by
  induction n generalizing l with
  | zero => rw [Option.some.inj h]
  | succ n ih =>
    rw [later?] at h
    obtain ⟨next, hnext, h⟩ := Option.bind_eq_some_iff.1 h
    obtain ⟨blob, -, hkey, -⟩ := next?_eq_some hnext
    rw [ih h, hkey]

/-- An earlier lookup comes before every later one. -/
theorem isSome_later?_of_le {m : Nat} (h : (l.later? source n).isSome = true) (hle : m ≤ n) :
    (l.later? source m).isSome = true := by
  obtain ⟨k, rfl⟩ := Nat.exists_eq_add_of_le hle
  rw [later?_add] at h
  exact Option.isSome_of_isSome_bind h

/-- Two lookups for one key are the same if they are for the same hash and as much of the key
remains. -/
theorem eq_of_key (hkey : l.key = l'.key) (hdigest : l.digest = l'.digest)
    (hlen : l.remaining.length = l'.remaining.length) : l = l' := by
  obtain ⟨hmatched, hremaining⟩ := List.append_inj' hkey hlen
  cases l
  cases l'
  obtain rfl := Path.ext hmatched
  obtain rfl := Path.ext hremaining
  obtain rfl := hdigest
  rfl

/-- Of more lookups than there are pairs of a hash and a number of nibbles one comes again. -/
theorem exists_again (hn : 256 ^ 32 * (maxNibbles + 1) ≤ n)
    (h : (l.later? source n).isSome = true) :
    ∃ i k x, 0 < k ∧ l.later? source i = some x ∧ x.later? source k = some x := by
  have hall : ∀ i : Fin (n + 1), ∃ x, l.later? source i = some x := fun i =>
    Option.isSome_iff_exists.1 (isSome_later?_of_le h (Nat.lt_succ_iff.1 i.isLt))
  choose x hx using hall
  let kind : Fin (n + 1) → Fin (256 ^ 32) × Fin (maxNibbles + 1) := fun i =>
    (⟨(x i).digest.toNat, (x i).digest.toNat_lt⟩,
      ⟨(x i).remaining.length, Nat.lt_succ_of_le (x i).remaining.length_le_max⟩)
  have hcard : Fintype.card (Fin (256 ^ 32) × Fin (maxNibbles + 1)) < Fintype.card (Fin (n + 1)) := by
    rw [Fintype.card_prod, Fintype.card_fin, Fintype.card_fin, Fintype.card_fin]
    exact Nat.lt_succ_of_le hn
  obtain ⟨i, j, hne, hkind⟩ := Fintype.exists_ne_map_eq_of_card_lt kind hcard
  have hagain : ∀ i j, kind i = kind j → i < j →
      (x i).later? source (j.val - i.val) = some (x i) := fun i j hkind hlt => by
    obtain ⟨hnumber, hremaining⟩ := Prod.mk.inj hkind
    have hdigest : (x i).digest = (x j).digest := by
      rw [← FixedBytes.ofNat_toNat (x i).digest, Fin.mk.inj hnumber, FixedBytes.ofNat_toNat]
    have hkey := (later?_key (hx i)).trans (later?_key (hx j)).symm
    have hj := hx j
    rwa [← Nat.add_sub_cancel' (Fin.lt_def.1 hlt).le, later?_add, hx i, Option.bind_some,
      ← eq_of_key hkey hdigest (Fin.mk.inj hremaining)] at hj
  rcases lt_or_gt_of_ne hne with hlt | hlt
  · exact ⟨i, j - i, x i, Nat.sub_pos_of_lt hlt, hx i, hagain i j hkind hlt⟩
  · exact ⟨j, i - j, x j, Nat.sub_pos_of_lt hlt, hx j, hagain j i hkind.symm hlt⟩

/-- A lookup that comes again comes again and again. -/
theorem later?_mul {k : Nat} (h : l.later? source k = some l) (c : Nat) :
    l.later? source (k * c) = some l := by
  induction c with
  | zero => rfl
  | succ c ih => rw [Nat.mul_succ, later?_add, ih, Option.bind_some, h]

/-- If there are as many lookups as the bound says, then there is always a further one. -/
theorem isSome_later?_of_bound (h : (l.later? source lookupBound).isSome = true) (n : Nat) :
    (l.later? source n).isSome = true := by
  obtain ⟨i, k, x, hk, hi, hagain⟩ := exists_again (by decide) h
  have hfar : l.later? source (i + k * n) = some x := by
    rw [later?_add, hi, Option.bind_some, later?_mul hagain]
  refine isSome_later?_of_le (Option.isSome_iff_exists.2 ⟨_, hfar⟩) ?_
  exact (Nat.le_mul_of_pos_left n hk).trans (Nat.le_add_left _ _)

end Lookup

/-! ## Verifications -/

section

variable [Hasher]

/-- A verification looks up at most one node more than its key has nibbles, apart from idle nodes. It
reaches the bound on its lookups exactly if there is no end to them, and never without idle nodes. -/
theorem verify_lookups (root : Word) (key : Path) (source : NodeSource) :
    (verify root key source).lookups ≤
        key.length + 1 + (verify root key source).visited.countP Visit.idle ∧
      ((verify root key source).outcome = .error (.error .endless) ↔
        isEmptyRoot root = false ∧
          ∀ fuel, (walk source fuel root .empty key).outcome = .error (.error .endless)) ∧
      ((∀ visit ∈ (verify root key source).visited, visit.idle = false) →
        (verify root key source).lookups ≤ key.length + 1 ∧
          (verify root key source).outcome ≠ .error (.error .endless)) := by
  let start : Lookup := ⟨root, .empty, key⟩
  rw [verify]
  cases hroot : isEmptyRoot root with
  | true => simp [Verification.lookups, Verification.misses]
  | false =>
    rw [if_neg Bool.false_ne_true]
    have hlen : (walk source lookupBound root .empty key).lookups ≤
        key.length + 1 + (walk source lookupBound root .empty key).visited.countP Visit.idle :=
      start.lookups_le
    refine ⟨hlen, ⟨fun h => ⟨rfl, fun fuel => ?_⟩, fun h => h.2 _⟩, fun hidle => ?_⟩
    · exact start.walk_endless_iff.2 (start.isSome_later?_of_bound (start.walk_endless_iff.1 h) fuel)
    · have hnone := List.countP_eq_zero.2 fun visit h => Bool.eq_false_iff.1 (hidle visit h)
      rw [hnone, Nat.add_zero] at hlen
      refine ⟨hlen, fun hendless => ?_⟩
      have hall : lookupBound ≤ (walk source lookupBound root .empty key).lookups :=
        (start.length_visited_of_endless hendless).symm.trans_le (Nat.le_add_right _ _)
      have hbound : maxNibbles + 1 < lookupBound := by decide
      have hkey := key.length_le_max
      exact absurd (hall.trans hlen) (by omega)

end

namespace Pair

open Trie

/-! The root and the leaves of the trie of two keys are not idle. The second leaf is missing. -/

theorem verify_missing₈ : verify trie.hash.1 (.ofWord (key 0x10)) source =
    ⟨[⟨.empty, digest encoding, encoding⟩], none, .error (.error (.missing hash₈ (.single 1)))⟩ := by
  obtain ⟨fuel, hfuel⟩ : ∃ fuel, lookupBound = fuel + 2 := ⟨lookupBound - 2, by decide⟩
  have hnone : source hash₈ = none := Option.eq_none_iff_forall_ne_some.2 fun b hb => by
    obtain ⟨hserved, hb⟩ := (source_eq_some_iff served_subset hash₈ b).1 hb
    obtain rfl := (collisionFree_blobsWith (Or.inr rfl)).inj (served_subset b hserved)
      (by simp [blobsWith, blobs]) (hb.trans digest₈.symm)
    exact absurd hserved (by decide)
  rw [verify, hash_trie, isEmptyRoot_encoding, if_neg Bool.false_ne_true, hfuel,
    walk_encoding (source_of_mem (by simp [served]) rfl) rfl curtain_child₈, walk, hnone]

theorem idle_encoding (p : Path) (w : Word) : Visit.idle ⟨p, w, encoding⟩ = false := by
  rw [Visit.idle, decode_root]
  rfl

theorem idle_leaf₇ (p : Path) (w : Word) : Visit.idle ⟨p, w, leafEncoding fragment [7]⟩ = false := by
  rw [Visit.idle, decode_leaf₇]
  rfl

end Pair

open Pair in
/-- The condition holds of the verifications of two keys, each with two lookups. The first one finds
its leaf, that of the second one is missing. -/
theorem verify_lookups_pair :
    (∀ visit ∈ (verify trie.hash.1 (.ofWord (key 0x00)) source).visited, visit.idle = false) ∧
      (verify trie.hash.1 (.ofWord (key 0x00)) source).lookups = 2 ∧
      (∀ visit ∈ (verify trie.hash.1 (.ofWord (key 0x10)) source).visited, visit.idle = false) ∧
      (verify trie.hash.1 (.ofWord (key 0x10)) source).lookups = 2 ∧
      (verify trie.hash.1 (.ofWord (key 0x00)) source).lookups ≤ (Path.ofWord (key 0x00)).length + 1 ∧
      (verify trie.hash.1 (.ofWord (key 0x10)) source).lookups ≤
        (Path.ofWord (key 0x10)).length + 1 := by
  have hfirst : ∀ visit ∈ (verify trie.hash.1 (.ofWord (key 0x00)) source).visited,
      visit.idle = false := by
    rw [verify_leaf₇]
    simp [idle_encoding, idle_leaf₇]
  have hsecond : ∀ visit ∈ (verify trie.hash.1 (.ofWord (key 0x10)) source).visited,
      visit.idle = false := by
    rw [verify_missing₈]
    simp [idle_encoding]
  refine ⟨hfirst, ?_, hsecond, ?_, ((verify_lookups _ _ _).2.2 hfirst).1,
    ((verify_lookups _ _ _).2.2 hsecond).1⟩
  · rw [verify_leaf₇]
    rfl
  · rw [verify_missing₈]
    rfl

/-! ## Idle nodes on the way -/

namespace Idle

open Trie

/-- The encoding of an extension with an empty fragment above a hash. -/
def blob (w : Word) : Bytes := extensionEncoding .empty (Rlp.data w.toBytes)

/-- The decoder accepts it. -/
theorem decode_blob (w : Word) : decode (blob w) = .ok (.extension .empty (.hidden w) none) := by
  have hflat : [Rlp.data (Path.empty.compact false), Rlp.data w.toBytes].flatten.length <
      256 ^ 8 := by
    have hword := Rlp.length_data_le (b := w.toBytes) (by rw [w.length_eq]; decide)
    rw [w.length_eq] at hword
    have hfragment : (Rlp.data (Path.empty.compact false)).length = 1 := by decide
    simp only [List.flatten_cons, List.flatten_nil, List.append_nil, List.length_append]
    omega
  have hf := Rlp.frames_data_of_mem (b := Path.empty.compact false) (by simp) hflat
  have hitems := Rlp.items_flatten [Rlp.data (Path.empty.compact false), Rlp.data w.toBytes]
    fun x hx => by
      rcases List.mem_pair.1 hx with rfl | rfl
      · exact ⟨_, hf⟩
      · exact ⟨_, Rlp.frames_word w⟩
  rw [blob, extensionEncoding, decode_list hflat]
  exact decodeList_extension (Rlp.isList_list hflat) (Rlp.frames_list hflat).payload hitems
    hf.payload (decodeChild_word w) nofun

/-- A walk goes on from it without passing a nibble. -/
theorem walk_blob {source : NodeSource} {w next : Word} (h : source w = some (blob next))
    (fuel : Nat) (k : Path) : walk source (fuel + 1) w .empty k =
      { walk source fuel next .empty k with
        visited := ⟨.empty, w, blob next⟩ :: (walk source fuel next .empty k).visited } := by
  have hdescend : (extension .empty (.hidden next) none).descend .empty k =
      .ok (.lookUp next .empty k) := by
    rw [descend, if_neg (by decide), if_pos (Path.startsWith_iff.2 List.nil_prefix)]
    rfl
  rw [walk, h]
  simp only [decode_blob, hdescend]

/-- The encoding of a leaf for the empty key. -/
def leafBlob : Bytes := leafEncoding .empty [7]

theorem decode_leafBlob : decode leafBlob = .ok (.leaf .empty [7] none) :=
  decode_content (n := 0) (t := .leaf .empty [7] none) ⟨le_refl _, nofun⟩
    (memoHolds_of_memo_none rfl) nofun rfl (by decide)

theorem walk_leafBlob {source : NodeSource} {w : Word} (h : source w = some leafBlob) (fuel : Nat) :
    walk source (fuel + 1) w .empty .empty =
      ⟨[⟨.empty, w, leafBlob⟩], some (.empty, [7]), .ok ⟨some [7], .empty, .leaf .empty [7] none⟩⟩ := by
  rw [walk, h]
  simp only [decode_leafBlob]
  rfl

/-- The hash of an idle node above the leaf. -/
def root : Word := digest (blob (digest leafBlob))

theorem collisionFree :
    CollisionFree (· ∈ [Rlp.emptyData, leafBlob, blob (digest leafBlob)]) := by
  refine collisionFree_of_nodup (fun b => id) ?_
  simp only [blob, digest_toNat, digest_toBytes]
  decide +kernel

/-- A word that refers to itself where nothing is hashed. -/
def circle : Word := .ofNat 32 1

theorem isEmptyRoot_circle : isEmptyRoot circle = false := by
  refine isEmptyRoot_eq_false_iff.2 ⟨by decide, Ne.symm (mt digest_eq_iff.1 ?_)⟩
  decide +kernel

end Idle

open Idle in
/-- Two nodes are looked up for the empty key if the first one is idle, although the source gives
nothing under a wrong hash. Where an idle node is found under the hash to which it refers, nothing
ends the walk. -/
theorem verify_idle :
    (∃ (source : NodeSource) (root : Word), source.Addressed ∧
      (verify root .empty source).outcome = .ok ⟨some [7], .empty, .leaf .empty [7] none⟩ ∧
      Path.empty.length + 1 < (verify root .empty source).visited.length) ∧
    ∃ (table : NodeTable) (root : Word), ∀ key, isEmptyRoot root = false ∧
      ∀ fuel, (walk table.source fuel root .empty key).outcome = .error (.error .endless) := by
  constructor
  · let blobs := [leafBlob, blob (digest leafBlob)]
    have hsource : ∀ h b, (NodeTable.ofProof blobs).source h = some b ↔ b ∈ blobs ∧ digest b = h :=
      ofProof_source collisionFree fun b hb => List.mem_cons_of_mem _ hb
    have hroot : isEmptyRoot root = false :=
      Trie.isEmptyRoot_digest collisionFree (by simp) (by simp) nofun
    have hfirst := (hsource root _).2 ⟨List.mem_cons_of_mem _ List.mem_cons_self, rfl⟩
    have hsecond := (hsource (digest leafBlob) _).2 ⟨List.mem_cons_self, rfl⟩
    have hverify : verify root .empty (NodeTable.ofProof blobs).source =
        ⟨[⟨.empty, root, blob (digest leafBlob)⟩, ⟨.empty, digest leafBlob, leafBlob⟩],
          some (.empty, [7]), .ok ⟨some [7], .empty, .leaf .empty [7] none⟩⟩ := by
      obtain ⟨fuel, hfuel⟩ : ∃ fuel, lookupBound = fuel + 2 := ⟨lookupBound - 2, by decide⟩
      rw [verify, hroot, if_neg Bool.false_ne_true, hfuel, walk_blob hfirst, walk_leafBlob hsecond]
    refine ⟨(NodeTable.ofProof blobs).source, root, fun h b hb => ((hsource h b).1 hb).2, ?_, ?_⟩
    · rw [hverify]
    · rw [hverify]
      exact Nat.lt_succ_self 1
  · let table : NodeTable := Table.empty.insert circle (blob circle)
    have hcircle : table.source circle = some (blob circle) := by
      rw [NodeTable.source, Table.find?_insert, if_pos rfl]
    refine ⟨table, circle, fun key => ⟨isEmptyRoot_circle, fun fuel => ?_⟩⟩
    induction fuel with
    | zero => rfl
    | succ fuel ih =>
      rw [walk_blob hcircle]
      exact ih

end Stateless
