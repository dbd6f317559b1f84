import Stateless.Proofs.Reader.Answers
import Stateless.Proofs.State.Prepared
import Stateless.Proofs.Trie.PartialMap

/-!
# Reading a prepared block

What has been read from an honest node through a recording reader can be read again, in any order,
from the tries that are rebuilt from the prepared block. The main result is `recorded_replay`.

The two ways of reading have nothing in common: the node answers with the fields that it claims for
an account and with single words, the other reader decodes what it finds in the tries.
-/

namespace Stateless

open Trie

section

variable [Hasher]

variable {node : RemoteNode} {n : UInt64} {w pre post : World} {list : AccessList}
variable {r : TrieReader} {source : NodeSource} {a : Address} {slot : Word}

/-! ## Reading from the node -/

/-- A node that proves a state without empty accounts answers for the accounts of the state. -/
theorem RemoteNode.Proves.readAccount (h : node.Proves n w)
    (hnonempty : ∀ a r, w.commit.account? a = some r → r.isEmpty = false) (a : Address) :
    node.readAccount n a = .ok (w.commit.account? a) := by
  obtain ⟨p, hp, hkey, hatt⟩ := h.proof a []
  obtain rfl := (Prod.mk.inj hkey).1
  rw [RemoteNode.readAccount, hp]
  dsimp only
  cases ha : w.commit.account? p.address with
  | none =>
    obtain ⟨r, hr, hempty⟩ := hatt.absent ha
    simp [hr, hempty, Except.map]
  | some r => simp [hatt.present ha, hnonempty _ r ha, Except.map]

/-- A reader of such a node answers every question by the state. -/
theorem RemoteNode.Proves.ask_remote (h : node.Proves n w)
    (hwords : ∀ a slot, node.storageAt a slot n = .ok (w.commit.word a slot))
    (hnonempty : ∀ a r, w.commit.account? a = some r → r.isEmpty = false) (root : Word) (q : Query)
    (s : Shared) : (Reader.remote node n root).ask q s =
      (.ok (q.reply w.commit), .remote node n root, s) := by
  cases q with
  | account a => simp [Reader.ask, Reader.account, h.readAccount hnonempty, Except.map, Query.reply]
  | storage a slot =>
    simp [Reader.ask, Reader.storage, RemoteNode.readStorage, hwords, Except.mapError, Except.map,
      Query.reply]

/-! ## Reading from the tries -/

namespace TrieReader

/-- A reader over a store that carries a transition has rebuilt, of the state before it, what the
store knows. Nothing is said of accounts without listed slots. -/
structure Knows (r : TrieReader) (list : AccessList) (pre post : World) : Prop where
  carries : r.nodes.source.Carries list pre post
  accounts : r.accounts = pre.commit.accounts.knownTo r.nodes.source
  storage {a : Address} {t : Trie} : list.slots a ≠ [] → r.storageTries.find? a = some t →
    t = (pre.commit.storageTrie a).knownTo r.nodes.source

theorem make_knows {nodes : NodeTable} (h : nodes.source.Carries list pre post)
    (hfree : CollisionFree (pre.Involved post list)) (hlist : list.addresses ≠ []) :
    ∃ r, make nodes pre.commit.root = .ok r ∧ r.Knows list pre post :=
  ⟨⟨nodes, pre.commit.root, pre.commit.accounts.knownTo nodes.source, .empty⟩,
    by rw [make, h.rebuild_accounts hfree hlist], h, rfl, fun _ hfind => nomatch hfind⟩

/-- Such a reader answers for listed accounts. -/
theorem Knows.readAccount (h : r.Knows list pre post)
    (hfree : CollisionFree (pre.Involved post list)) (ha : list.containsAccount a = true) :
    r.readAccount a = .ok (pre.commit.account? a) := by
  obtain ⟨s, hbridges, hserved⟩ := h.carries.accounts
  have hmem : hashedAddress a ∈ list.addresses.map hashedAddress :=
    List.mem_map_of_mem (AccessList.mem_addresses_iff.2 ha)
  have hview := hbridges.view_knownTo hserved pre.whole_accounts hmem
  rw [World.view_accounts hfree (fun b hb => .address (Or.inr (Or.inl hb))) (.address (Or.inl ha))]
    at hview
  rw [TrieReader.readAccount, getProven_eq, h.accounts, hview]
  cases pre.commit.account? a with
  | none => rfl
  | some r => simp [Except.mapError, Except.map]

/-- Such a reader finds the storage trie of an account with listed slots. -/
theorem Knows.storageTrie (h : r.Knows list pre post)
    (hfree : CollisionFree (pre.Involved post list)) (ha : list.containsAccount a = true)
    (hslots : list.slots a ≠ []) (hne : pre.commit.storageTrie a ≠ .empty) :
    ∃ r', r.storageTrie a (pre.commit.storageTrie a).rootHash =
        .ok ((pre.commit.storageTrie a).knownTo r.nodes.source, r') := by
  rw [TrieReader.storageTrie]
  cases hfind : r.storageTries.find? a with
  | some t => exact ⟨r, by rw [h.storage hslots hfind]⟩
  | none =>
    rw [h.carries.rebuild_storage hfree ha hslots hne]
    exact ⟨_, rfl⟩

/-- The storage of an account in the state before is empty if its record says so. -/
theorem isEmptyRoot_storageRoot {account : Account}
    (hfree : CollisionFree (pre.Involved post list)) (ha : list.containsAccount a = true)
    (haccount : pre.commit.account? a = some account) :
    isEmptyRoot account.storageRoot = true ↔ pre.commit.storageTrie a = .empty := by
  have ht := pre.whole_storageTrie a
  rw [World.storageRoot_of_account? haccount, ← ht.hash_eq_rootHash]
  exact ht.isEmptyRoot_hash hfree .emptyData fun e he => .storageBefore ha he

/-- Such a reader answers for listed slots. -/
theorem Knows.readStorage (h : r.Knows list pre post)
    (hfree : CollisionFree (pre.Involved post list)) (hslot : list.containsSlot a slot = true) :
    (r.readStorage a slot).1 = .ok (pre.commit.word a slot) := by
  have ha := AccessList.containsAccount_of_containsSlot hslot
  have hmem := AccessList.mem_slots_iff.2 hslot
  have hword : pre.commit.word a slot =
      ((pre.find? a).bind fun h => h.storage.find? slot).getD .zero := rfl
  have hview : (pre.commit.storageTrie a).view (Path.ofWord (hashedSlot slot)).toList =
      .ok (((pre.find? a).bind fun h => h.storage.find? slot).map encodeStorage) :=
    World.view_storageTrie hfree (fun h x hh hx => .slot ha (Or.inl hh) hx) (.listedSlot hslot)
  generalize ((pre.find? a).bind fun h => h.storage.find? slot) = word at hword hview
  -- a slot of an empty trie is zero
  have hzero : pre.commit.storageTrie a = .empty → pre.commit.word a slot = .zero := by
    intro hempty
    rw [hempty, view_empty] at hview
    rw [hword, Option.map_eq_none_iff.1 (Except.ok.inj hview).symm]
    rfl
  rw [TrieReader.readStorage, h.readAccount hfree ha]
  cases haccount : pre.commit.account? a with
  | none => exact congrArg Except.ok (hzero (World.storageTrie_of_account?_eq_none haccount)).symm
  | some account =>
    have hroot := isEmptyRoot_storageRoot hfree ha haccount
    by_cases hne : pre.commit.storageTrie a = .empty
    · rw [hzero hne]
      simp only [hroot.2 hne, if_true]
    · obtain ⟨r', hr'⟩ := h.storageTrie hfree ha (List.ne_nil_of_mem hmem) hne
      obtain ⟨s, hbridges, hserved⟩ := h.carries.storage ha hne
      have hget := hbridges.view_knownTo hserved (pre.whole_storageTrie a)
        (List.mem_map_of_mem (f := hashedSlot) hmem)
      dsimp only
      rw [if_neg (mt hroot.1 hne), World.storageRoot_of_account? haccount, hr']
      dsimp only
      rw [getProven_eq, hget, hview, hword]
      cases word with
      | none => rfl
      | some v => simp [Except.mapError]

/-- Such a reader gives the answers of the state to what is listed. -/
theorem Knows.ask (h : r.Knows list pre post) (hfree : CollisionFree (pre.Involved post list))
    {q : Query} (hq : q.Listed list) (s : Shared) :
    ((Reader.tries r).ask q s).1 = .ok (q.reply pre.commit) := by
  cases q with
  | account a => exact congrArg (Except.map Reply.account) (h.readAccount hfree hq)
  | storage a slot => exact congrArg (Except.map Reply.word) (h.readStorage hfree hq)

end TrieReader

/-- Copies of a reader over a store that carries a transition answer what is listed by the state
before it, whatever else they are asked for. -/
theorem Session.replayed (h : r.Knows list pre post)
    (hfree : CollisionFree (pre.Involved post list)) (turns : List Turn) (shared : Shared) :
    ∀ x ∈ ((start (.tries r) shared).run turns).log, x.1.Listed list →
      x.2 = .ok (x.1.reply pre.commit) := by
  intro x hx hlisted
  rw [log_eq r shared turns x hx shared]
  exact h.ask hfree hlisted shared

/-! ## Reading again -/

/-- A session of reads through copies of a recording reader over an honest node, at the block before
one that is then prepared, gets the answers of the state to all questions. The block can be prepared
with what was recorded, its nodes can be written into an empty store, a reader of tries can be made
over the store at the root before the block, and in every session of its copies a question that was
recorded gets the recorded answer, whatever else is asked. -/
theorem recorded_replay {i : Nat} {root : Word} {shared : Shared} {turns : List Turn}
    {session : Session} (hhonest : node.Honest n pre post) (hn : n ≠ 0)
    (hwords : ∀ a slot, node.storageAt a slot (n - 1) = .ok (pre.commit.word a slot))
    (hnonempty : ∀ a r, pre.commit.account? a = some r → r.isEmpty = false)
    (hsession : (Session.start (.recording i (.remote node (n - 1) root)) shared).run turns = session)
    (hread : session.log ≠ [])
    (hfree : CollisionFree (pre.Involved post (session.shared.record i))) :
    (∀ x ∈ session.log, x.2 = .ok (x.1.reply pre.commit)) ∧
    ∃ p count store reader,
      PreparedBlock.prepare node n (session.shared.record i) = .ok p ∧
      p.writeNodes (NodeTable.write .empty) = .ok (count, store) ∧
      p.preRoot = pre.commit.root ∧ TrieReader.make store p.preRoot = .ok reader ∧
      ∀ again shared', ∀ x ∈ ((Session.start (.tries reader) shared').run again).log,
        ∀ y ∈ session.log, x.1 = y.1 → x.2 = y.2 := by
  have hlog : ∀ x ∈ session.log, x.2 = .ok (x.1.reply pre.commit) ∧
      x.1.Listed (session.shared.record i) := by
    rw [← hsession]
    exact Session.recorded (hhonest.before.ask_remote hwords hnonempty root) (fun _ => rfl) turns
  obtain ⟨p, hp, hatt⟩ := hhonest.prepare_eq_ok hn (session.shared.record i)
  obtain ⟨count, store, hwrite, hcarries⟩ := hatt.writeNodes_eq_ok hfree
  have haddresses : (session.shared.record i).addresses ≠ [] := by
    obtain ⟨x, hx⟩ := List.exists_mem_of_ne_nil _ hread
    exact List.ne_nil_of_mem (AccessList.mem_addresses_iff.2 (hlog x hx).2.address)
  obtain ⟨reader, hreader, hknows⟩ := TrieReader.make_knows hcarries hfree haddresses
  refine ⟨fun x hx => (hlog x hx).1, p, count, store, reader, hp, hwrite, hatt.preRoot,
    by rw [hatt.preRoot, hreader], fun again shared' x hx y hy heq => ?_⟩
  obtain ⟨hreply, hlisted⟩ := hlog y hy
  rw [hreply, Session.replayed hknows hfree again shared' x hx (heq ▸ hlisted), heq]

end

/-! ## An instance -/

namespace Clearing

/-- A copy is asked for the slot, and the reader itself for the account. -/
def reads : List Turn := [.copy 0, .ask 1 (.storage address slot), .ask 0 (.account address)]

/-- What the reader and its copy do. -/
def session : Session :=
  (Session.start (.recording 0 (.remote node (1 - 1) .zero)) .empty).run reads

theorem storageAt (a : Address) (x : Word) :
    node.storageAt a x (1 - 1) = .ok (before.commit.word a x) := Chain.ofWorlds_storageAt rfl a x

theorem isEmpty_before (a : Address) (r : Account) (h : before.commit.account? a = some r) :
    r.isEmpty = false := by
  obtain ⟨x, hx, rfl⟩ := Option.map_eq_some_iff.1 h
  obtain ⟨rfl, rfl⟩ := find?_before.1 hx
  rfl

theorem record_session : session.shared.record 0 = touched := rfl

theorem word_before : before.commit.word address slot = word := rfl

end Clearing

section

open Clearing

/-- The hypotheses hold of Keccak-256 and an account that clears its only slot. What is read in the
slot before the change is read from the tries, too. -/
theorem recorded_replay_clearing :
    node.Honest 1 before after ∧ (1 : UInt64) ≠ 0 ∧
    (∀ a slot, node.storageAt a slot (1 - 1) = .ok (before.commit.word a slot)) ∧
    (∀ a r, before.commit.account? a = some r → r.isEmpty = false) ∧
    session.log ≠ [] ∧ CollisionFree (before.Involved after (session.shared.record 0)) ∧
    ∃ p count store reader,
      PreparedBlock.prepare node 1 (session.shared.record 0) = .ok p ∧
      p.writeNodes (NodeTable.write .empty) = .ok (count, store) ∧
      TrieReader.make store p.preRoot = .ok reader ∧
      ((Reader.tries reader).ask (.storage address slot) .empty).1 = .ok (.word word) := by
  have hread : session.log ≠ [] := nofun
  have hfree : CollisionFree (before.Involved after (session.shared.record 0)) := by
    rw [record_session]
    exact collisionFree
  obtain ⟨hlog, p, count, store, reader, hp, hwrite, -, hreader, hsame⟩ :=
    recorded_replay honest (by decide) storageAt isEmpty_before rfl hread hfree
  refine ⟨honest, by decide, storageAt, isEmpty_before, hread, hfree, p, count, store, reader, hp,
    hwrite, hreader, ?_⟩
  have hmem : (.storage address slot, (node.readStorage (1 - 1) address slot).map .word) ∈
      session.log := List.mem_cons_self
  have hagain := hsame [.ask 0 (.storage address slot)] .empty _ (List.mem_singleton_self _) _ hmem rfl
  exact hagain.trans ((hlog _ hmem).trans (congrArg (Except.ok ∘ Reply.word) word_before))

end

end Stateless
