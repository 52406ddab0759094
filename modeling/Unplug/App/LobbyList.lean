import Unplug.App.Frame
import Unplug.Machine.Subscriber
import Unplug.Room.Joins

/-! # The lobby's list

The lobby's block adds the users it sees to a dictionary and never clears it. No write
takes a user or its name out of a room, so the dictionary is a subscriber that shows the
users of the snapshot it was given last. -/
namespace Unplug.App
open Unplug.Store Unplug.Firebase Unplug.Machine Unplug.Room RealtimeDatabase

/-! ## The table -/

def QRCodeGeneratorViewController.numberOfRowsInSection (vc : QRCodeGeneratorViewController) : ℕ :=
  vc.uidAndNameDict.keys.length

def QRCodeGeneratorViewController.cellForRowAtIndexPath (vc : QRCodeGeneratorViewController)
    (row : ℕ) : Option String :=
  (vc.uidAndNameDict.keys[row]?).bind fun key => vc.uidAndNameDict.lookup key

theorem lookup_setValueForKey (dict : AList fun _ : String => String) (key : String)
    (value : Option String) (k : String) :
    (setValueForKey dict key value).lookup k = if k = key then value else dict.lookup k := by
  cases value with
  | some value =>
    by_cases hk : k = key
    · subst hk
      simp [setValueForKey]
    · simp [setValueForKey, hk, AList.lookup_insert_ne hk]
  | none =>
    by_cases hk : k = key
    · subst hk
      simp [setValueForKey]
    · simp [setValueForKey, hk, AList.lookup_erase_ne hk]

theorem lookup_foldl_setValueForKey (keys : List String) (f : String → Option String)
    (dict : AList fun _ : String => String) (k : String) :
    (keys.foldl (fun dict key => setValueForKey dict key (f key)) dict).lookup k =
      if k ∈ keys then f k else dict.lookup k := by
  induction keys generalizing dict with
  | nil => rfl
  | cons key keys ih =>
    rw [List.foldl_cons, ih, lookup_setValueForKey]
    by_cases hlater : k ∈ keys
    · rw [if_pos hlater, if_pos (List.mem_cons_of_mem _ hlater)]
    · by_cases hk : k = key
      · subst hk
        rw [if_neg hlater, if_pos rfl, if_pos List.mem_cons_self]
      · rw [if_neg hlater, if_neg hk, if_neg (by simp [hk, hlater])]

section
variable {δ : Type*} [RealtimeDatabase δ] {rid : String}

/-- The block lays the names of the snapshot's users over the dictionary. -/
theorem lookup_collectNames (db : δ) (dict : AList fun _ : String => String) (uid : String) :
    (collectNames db (roomRef rid) dict).lookup uid =
      if uid ∈ children db (roomUsersRef rid) then strAt db (roomUsersRef rid ++ [uid, "name"])
      else dict.lookup uid := by
  have hpath : ∀ uid, roomRef rid ++ ["users", uid, "name"] =
      roomUsersRef rid ++ [uid, "name"] := by
    intro uid
    simp [roomUsersRef]
  have hkeys : ∀ (keys : List String) (dict : AList fun _ : String => String),
      (keys.foldl (fun dict key =>
        if key = "users" then
          (children db (roomUsersRef rid)).foldl (fun dict uid => setValueForKey dict uid
            (strAt db (roomUsersRef rid ++ [uid, "name"]))) dict
        else dict) dict).lookup uid =
      if "users" ∈ keys ∧ uid ∈ children db (roomUsersRef rid) then
        strAt db (roomUsersRef rid ++ [uid, "name"])
      else dict.lookup uid := by
    intro keys
    induction keys with
    | nil => simp
    | cons key keys ih =>
      intro dict
      rw [List.foldl_cons, ih]
      by_cases hkey : key = "users"
      · rw [if_pos hkey, lookup_foldl_setValueForKey]
        by_cases hu : uid ∈ children db (roomUsersRef rid) <;> simp [hu, hkey]
      · simp [hkey, Ne.symm hkey]
  simp only [collectNames, hpath]
  refine (hkeys _ dict).trans (if_congr (and_iff_right_of_imp ?_) rfl rfl)
  intro hu
  -- a user below the users child shows that the room has that child
  exact mem_children_iff.mpr (hasData_of_append (mem_children_iff.mp hu))

/-! ## The users of a room -/

/-- The name of each user of the room. -/
def usersMap (rid : String) (db : δ) (uid : String) : Option String :=
  (entryAt rid uid db).map Entry.name

/-- Whoever has anything below its key has a whole entry. -/
def Whole (rid : String) (db : δ) : Prop :=
  ∀ uid q, userSubtree rid uid db q ≠ none → entryAt rid uid db ≠ none

theorem Whole.children (h : Whole rid (db : δ)) {uid : String} :
    uid ∈ children db (roomUsersRef rid) ↔ usersMap rid db uid ≠ none := by
  rw [mem_children, usersMap, ne_eq, Option.map_eq_none_iff]
  constructor
  · intro hx
    obtain ⟨q, l, hl⟩ := hx
    exact h uid q (by rw [userSubtree, hl]; simp)
  · intro he
    by_contra hno
    refine he ?_
    have hname : strAt db (roomUsersRef rid ++ [uid, "name"]) = none := by
      by_contra hs
      obtain ⟨name, hname⟩ := Option.ne_none_iff_exists'.mp hs
      exact hno ⟨["name"], _, strAt_eq_some.mp hname⟩
    simp [entryAt, hname]

theorem Whole.name (h : Whole rid (db : δ)) (uid : String) :
    strAt db (roomUsersRef rid ++ [uid, "name"]) = usersMap rid db uid := by
  cases hs : strAt db (roomUsersRef rid ++ [uid, "name"]) with
  | none => simp [usersMap, entryAt, hs]
  | some name =>
    have he : entryAt rid uid db ≠ none := by
      refine h uid ["name"] ?_
      rw [userSubtree, strAt_eq_some.mp hs]
      simp
    cases ht : timeAt db rid uid with
    | none => simp [entryAt, hs, ht] at he
    | some t => simp [usersMap, entryAt, hs, ht]

theorem whole_create (db : δ) (hrid : IsKey rid) (room : Room) (creator : User) :
    Whole rid (createAndJoinRoom db rid room creator) := by
  intro uid q hq
  simp only [userSubtree_key hrid, leafAt_create_users db hrid, if_true] at hq
  rw [entryAt_create db hrid]
  split at hq
  · rename_i hu
    simp [hu]
  · exact absurd rfl hq

theorem Whole.apply {db : δ} (h : Whole rid db) (hrid : IsKey rid) {op : RoomOp}
    (hop : AfterCreate rid op) : Whole rid (op.apply db) := by
  intro uid q hq
  rw [entryAt_apply hrid hop]
  cases hm : moveOf rid uid op with
  | none =>
    rw [userSubtree_frame hrid hop (by simp [own, hm])] at hq
    exact h uid q hq
  | some m =>
    cases m with
    | join name => simp [Entry.next]
    | mark ts =>
      cases he : entryAt rid uid db with
      | some e => simp [Entry.next]
      | none =>
        -- the mark found no time and left the nothing that was there
        obtain ⟨ts', rfl⟩ : ∃ ts, op = .mark rid uid ts := by
          have hown : own rid uid op = true := by simp [own, hm]
          rcases own_cases hown with ⟨user, rfl, hu⟩ | hmark
          · simp [moveOf, hu] at hm
          · exact hmark
        have hnone : ∀ q, userSubtree rid uid db q = none := by
          intro q
          by_contra hn
          exact h uid q hn he
        have htime : leafAt db (roomUserTimeRef rid uid) = none := hnone ["time"]
        rw [apply_mark, commitMark, htime, if_neg (by simp)] at hq
        exact absurd (hnone q) hq

/-- No write takes a user's name out of a room. -/
theorem keeps_usersMap (hrid : IsKey rid) :
    Subscriber.Keeps (RoomOp.apply (δ := δ)) (usersMap rid) (AfterCreate rid) := by
  intro db op uid hop hold
  rw [usersMap, ne_eq, Option.map_eq_none_iff] at hold ⊢
  rw [entryAt_apply hrid hop]
  cases moveOf rid uid op with
  | none => exact hold
  | some m =>
    cases m with
    | join name => simp [Entry.next]
    | mark ts =>
      cases he : entryAt rid uid db with
      | none => exact absurd he hold
      | some e => simp [Entry.next]

/-- An entry is there exactly if it was there before or a join made it. -/
theorem exec_next_ne_none {e : Option Entry} {moves : List Move} :
    exec Entry.next e moves ≠ none ↔ e ≠ none ∨ ∃ name, Move.join name ∈ moves := by
  induction moves using List.reverseRecOn with
  | nil => simp
  | append_singleton moves m ih =>
    rw [exec_concat]
    cases m with
    | join name => simp [Entry.next]
    | mark ts =>
      have hmark : Entry.next (exec Entry.next e moves) (.mark ts) ≠ none ↔
          exec Entry.next e moves ≠ none := by
        cases exec Entry.next e moves with
        | none => simp [Entry.next]
        | some e' => simp [Entry.next]
      rw [hmark, ih]
      simp

/-- After a creation the room has the users that created or joined it. -/
theorem usersMap_ne_none (hrid : IsKey rid) (db : δ) (room : Room) (creator : User)
    {ops : List RoomOp} (hops : ∀ op ∈ ops, AfterCreate rid op) (uid : String) :
    usersMap rid (exec RoomOp.apply (createAndJoinRoom db rid room creator) ops) uid ≠ none ↔
      uid = creator.uid ∨ ∃ user, .joinRoomWithRID rid user ∈ ops ∧ user.uid = uid := by
  rw [usersMap, ne_eq, Option.map_eq_none_iff, entryAt_exec hrid hops, entryAt_create db hrid]
  refine exec_next_ne_none.trans (or_congr (by simp) ?_)
  constructor
  · intro hx
    obtain ⟨name, hm⟩ := hx
    obtain ⟨op, hop, hmv⟩ := List.mem_filterMap.mp hm
    have hown : own rid uid op = true := by simp [own, hmv]
    rcases own_cases hown with ⟨user, rfl, hu⟩ | ⟨ts, rfl⟩
    · exact ⟨user, hop, hu⟩
    · simp [moveOf] at hmv
  · intro hx
    obtain ⟨user, hop, hu⟩ := hx
    exact ⟨user.name, List.mem_filterMap.mpr ⟨_, hop, by simp [moveOf, hu]⟩⟩

theorem whole_exec (hrid : IsKey rid) (db : δ) (room : Room) (creator : User)
    {ops : List RoomOp} (hops : ∀ op ∈ ops, AfterCreate rid op) :
    Whole rid (exec RoomOp.apply (createAndJoinRoom db rid room creator) ops) := by
  induction ops using List.reverseRecOn with
  | nil => exact whole_create db hrid room creator
  | append_singleton ops op ih =>
    rw [exec_concat]
    exact (ih fun o ho => hops o (List.mem_append_left _ ho)).apply hrid (hops op (by simp))

end

/-! ## One lobby -/

/-- A client with a lobby, the writes the server has applied since the room's creation,
and how many of them the lobby was last told of. -/
structure Watching where
  ops : List RoomOp
  told : ℕ
  client : Client

inductive LobbyEvent
  | write (op : RoomOp)
  /-- The observer number `k` gets the room as the first `i` writes left it. -/
  | snapshot (k i : ℕ)

/-- The write of an event. -/
def LobbyEvent.op : LobbyEvent → Option RoomOp
  | .write op => some op
  | .snapshot _ _ => none

section
variable {δ : Type*} [RealtimeDatabase δ] {rid : String} {id : ℕ}

def Watching.step (created : δ) (w : Watching) : LobbyEvent → Watching
  | .write op => { w with ops := w.ops ++ [op] }
  | .snapshot k i => match w.client.observers[k]? with
    | some o => { w with
        told := i
        client := w.client.deliver k o (exec RoomOp.apply created (w.ops.take i)) }
    | none => w

/-- The writes go to rooms of single keys and create this one no second time; the
snapshots are of the room, go to one of the lobby's observers, and come in order. -/
def Watching.InOrder (rid : String) (id : ℕ) (w : Watching) : LobbyEvent → Prop
  | .write op => AfterCreate rid op
  | .snapshot k i => (∃ single, w.client.observers[k]? = some ⟨roomRef rid, .lobby id, single⟩) ∧
    w.told ≤ i ∧ i ≤ w.ops.length

/-- The table shows the users of the room in the state `db`, each in one row. -/
structure Lists (rid : String) (vc : QRCodeGeneratorViewController) (db : δ) : Prop where
  dict : ∀ uid, vc.uidAndNameDict.lookup uid = strAt db (roomUsersRef rid ++ [uid, "name"])
  keys : vc.uidAndNameDict.keys.Perm (children db (roomUsersRef rid))
  rows : vc.numberOfRowsInSection = (children db (roomUsersRef rid)).length
  cells : ∀ row, vc.cellForRowAtIndexPath row =
    (vc.uidAndNameDict.keys[row]?).bind fun uid => strAt db (roomUsersRef rid ++ [uid, "name"])

theorem lists_of_lookup {vc : QRCodeGeneratorViewController} {db : δ} (h : Whole rid db)
    (hdict : ∀ uid, vc.uidAndNameDict.lookup uid = usersMap rid db uid) : Lists rid vc db := by
  have hperm : vc.uidAndNameDict.keys.Perm (children db (roomUsersRef rid)) := by
    refine (List.perm_ext_iff_of_nodup vc.uidAndNameDict.keys_nodup (children_nodup db _)).mpr ?_
    intro uid
    rw [← AList.mem_keys, ← AList.lookup_isSome, h.children, hdict, Option.isSome_iff_ne_none]
  refine ⟨?_, hperm, hperm.length_eq, ?_⟩
  · intro uid
    rw [hdict, h.name]
  · intro row
    simp only [QRCodeGeneratorViewController.cellForRowAtIndexPath, hdict, h.name]

/-! ## A subscriber -/

theorem lobbies_performRoomStats (c : Client) (id : ℕ) :
    (c.performRoomStats id).lobbies = c.lobbies :=
  Client.present_keeps Client.lobbies (fun _ _ _ => rfl) _ _ fun _ =>
    Client.setUpLabel_keeps Client.lobbies fun _ _ => rfl

theorem lobbies_performToResults (c : Client) (stats : RoomStatsViewController) :
    (c.performToResults stats).lobbies = c.lobbies :=
  Client.present_keeps Client.lobbies (fun _ _ _ => rfl) _ _ fun _ => rfl

theorem lobbies_deliver (c : Client) (k : ℕ) {o : Observer} (ho : o.block = .lobby id) (db : δ) :
    (c.deliver k o db).lobbies = c.lobbies.modify id fun vc =>
      { vc with uidAndNameDict := collectNames db o.ref vc.uidAndNameDict } := by
  obtain ⟨obs, -, heq⟩ := c.deliver_eq k o db
  rw [heq]
  simp only [ho, Client.observeEventBlock]
  split
  · rw [lobbies_performRoomStats]
  · rfl

/-- What an event is to the subscriber. -/
def LobbyEvent.input : LobbyEvent → Subscriber.Input RoomOp
  | .write op => .write op
  | .snapshot _ i => .tell i

def Watching.subscriber (id : ℕ) (w : Watching) : Subscriber RoomOp String String :=
  ⟨w.ops, w.told, fun uid => (w.client.lobbies[id]?).bind (·.uidAndNameDict.lookup uid)⟩

variable {db : δ} {room : Room} {creator : User}

theorem Watching.step_snapshot {w : Watching} {vc : QRCodeGeneratorViewController}
    (hvc : w.client.lobbies[id]? = some vc) {k i : ℕ} {single : Bool}
    (ho : w.client.observers[k]? = some ⟨roomRef rid, .lobby id, single⟩) (created : δ) :
    (w.step created (.snapshot k i)).client.lobbies[id]? = some { vc with
      uidAndNameDict := collectNames (exec RoomOp.apply created (w.ops.take i)) (roomRef rid)
        vc.uidAndNameDict } := by
  simp only [Watching.step, ho]
  rw [lobbies_deliver _ _ rfl, List.getElem?_modify_eq, hvc]
  rfl

/-- **The lobby's dictionary is a subscriber of the users of the room.** -/
theorem subscriber_step (hrid : IsKey rid) (db : δ) (room : Room) (creator : User) {w : Watching}
    (hops : ∀ op ∈ w.ops, AfterCreate rid op) {vc : QRCodeGeneratorViewController}
    (hvc : w.client.lobbies[id]? = some vc) {e : LobbyEvent} (he : w.InOrder rid id e) :
    (w.subscriber id).InOrder (AfterCreate rid) e.input ∧
      (w.step (createAndJoinRoom db rid room creator) e).subscriber id =
        (w.subscriber id).step RoomOp.apply (usersMap rid) (createAndJoinRoom db rid room creator)
          e.input := by
  cases e with
  | write op => exact ⟨he, rfl⟩
  | snapshot k i =>
    obtain ⟨⟨single, ho⟩, hi⟩ := he
    refine ⟨hi, ?_⟩
    have hwhole : Whole rid (exec RoomOp.apply (createAndJoinRoom db rid room creator)
        (w.ops.take i)) :=
      whole_exec hrid db room creator fun op h => hops op (List.mem_of_mem_take h)
    have hlobby := Watching.step_snapshot hvc ho (createAndJoinRoom db rid room creator) (i := i)
    simp only [Watching.subscriber, hlobby, LobbyEvent.input, Subscriber.step, hvc,
      Option.bind_some]
    simp only [Watching.step, ho, Subscriber.mk.injEq, true_and]
    funext uid
    rw [lookup_collectNames, hwhole.name]
    split
    · rename_i hu
      obtain ⟨name, hname⟩ := Option.ne_none_iff_exists'.mp (hwhole.children.mp hu)
      rw [hname]
      rfl
    · rename_i hu
      rw [not_not.mp (mt hwhole.children.mpr hu)]
      rfl

/-- What holds of a lobby while writes and snapshots come. -/
structure Watching.Follows (rid : String) (id : ℕ) (created : δ) (w : Watching) : Prop where
  faithful : (w.subscriber id).Faithful RoomOp.apply (usersMap rid) (AfterCreate rid) created
  loaded : ∃ vc, w.client.lobbies[id]? = some vc

theorem Watching.Follows.step (hrid : IsKey rid) {w : Watching}
    (h : w.Follows rid id (createAndJoinRoom db rid room creator)) {e : LobbyEvent}
    (he : w.InOrder rid id e) : (w.step (createAndJoinRoom db rid room creator) e).Follows rid id
      (createAndJoinRoom db rid room creator) := by
  obtain ⟨vc, hvc⟩ := h.loaded
  obtain ⟨hinput, hsub⟩ := subscriber_step hrid db room creator h.faithful.log hvc he
  refine ⟨?_, ?_⟩
  · rw [hsub]
    exact h.faithful.step (keeps_usersMap hrid) hinput
  · cases e with
    | write op => exact ⟨vc, hvc⟩
    | snapshot k i =>
      obtain ⟨⟨single, ho⟩, -⟩ := he
      exact ⟨_, Watching.step_snapshot hvc ho _⟩

theorem Watching.Follows.lists (hrid : IsKey rid) {w : Watching}
    (h : w.Follows rid id (createAndJoinRoom db rid room creator)) {k i : ℕ}
    (he : w.InOrder rid id (.snapshot k i)) :
    ∃ vc, (w.step (createAndJoinRoom db rid room creator) (.snapshot k i)).client.lobbies[id]? =
        some vc ∧
      Lists rid vc (exec RoomOp.apply (createAndJoinRoom db rid room creator) (w.ops.take i)) ∧
      ∀ uid, uid ∈ vc.uidAndNameDict ↔
        uid = creator.uid ∨ ∃ user, .joinRoomWithRID rid user ∈ w.ops.take i ∧ user.uid = uid := by
  obtain ⟨vc, hvc⟩ := h.loaded
  obtain ⟨-, hsub⟩ := subscriber_step hrid db room creator h.faithful.log hvc he
  obtain ⟨⟨single, ho⟩, htold, -⟩ := he
  have hafter := Watching.step_snapshot hvc ho (createAndJoinRoom db rid room creator) (i := i)
  have hlog : ∀ op ∈ w.ops.take i, AfterCreate rid op :=
    fun op hop => h.faithful.log op (List.mem_of_mem_take hop)
  -- the dictionary is what the subscriber holds
  have hheld := congrArg Subscriber.held hsub
  rw [LobbyEvent.input, h.faithful.tell (keeps_usersMap hrid) htold] at hheld
  simp only [Watching.subscriber, hafter, Option.bind_some] at hheld
  refine ⟨_, hafter, lists_of_lookup (whole_exec hrid db room creator hlog) (congrFun hheld), ?_⟩
  intro uid
  rw [← AList.lookup_isSome, Option.isSome_iff_ne_none, congrFun hheld,
    usersMap_ne_none hrid db room creator hlog]

theorem ops_exec (created : δ) (w : Watching) (events : List LobbyEvent) :
    (exec (Watching.step created) w events).ops = w.ops ++ events.filterMap LobbyEvent.op := by
  induction events using List.reverseRecOn with
  | nil => simp
  | append_singleton events e ih =>
    rw [exec_concat, List.filterMap_append, ← List.append_assoc, ← ih]
    cases e with
    | write op => rfl
    | snapshot k i =>
      simp only [Watching.step, LobbyEvent.op, List.filterMap_cons, List.filterMap_nil,
        List.append_nil]
      split <;> rfl

/-- **The lobby's list is exact.** Whatever is written to the room after its creation, and
however the snapshots of its states reach the two observers of a new lobby, none older than
one before: after each, the table has one row for each user of the snapshot, those who
created or joined the room until then, with the name the snapshot has for it. -/
theorem lobby_list_exact (db : δ) (hrid : IsKey rid) (room : Room) (creator : User) {c : Client}
    {vc : QRCodeGeneratorViewController} (hvc : c.lobbies[id]? = some vc)
    (hnew : vc.uidAndNameDict = ∅) {events : List LobbyEvent}
    (h : Along (Watching.step (createAndJoinRoom db rid room creator)) (Watching.InOrder rid id)
      ⟨[], 0, c⟩ events) :
    ∀ pre k i post, events = pre ++ .snapshot k i :: post →
      ∃ vc, (exec (Watching.step (createAndJoinRoom db rid room creator)) ⟨[], 0, c⟩
          (pre ++ [.snapshot k i])).client.lobbies[id]? = some vc ∧
        Lists rid vc (exec RoomOp.apply (createAndJoinRoom db rid room creator)
          ((pre.filterMap LobbyEvent.op).take i)) ∧
        ∀ uid, uid ∈ vc.uidAndNameDict ↔ uid = creator.uid ∨
          ∃ user, .joinRoomWithRID rid user ∈ (pre.filterMap LobbyEvent.op).take i ∧
            user.uid = uid := by
  intro pre k i post heq
  subst heq
  obtain ⟨hpre, he, -⟩ := Along.append.mp h
  have hnone : ∀ uid, (Watching.subscriber id ⟨[], 0, c⟩).held uid = none := by
    intro uid
    simp [Watching.subscriber, hvc, hnew]
  have hstart : Watching.Follows rid id (createAndJoinRoom db rid room creator) ⟨[], 0, c⟩ :=
    ⟨⟨fun op hop => (List.not_mem_nil hop).elim, le_rfl, fun uid hu => absurd (hnone uid) hu⟩,
      vc, hvc⟩
  have hf := exec_invariant hstart (fun _ _ hi hp => hi.step hrid hp) hpre
  have hops := ops_exec (createAndJoinRoom db rid room creator) ⟨[], 0, c⟩ pre
  rw [List.nil_append] at hops
  rw [exec_concat, ← hops]
  exact hf.lists hrid he

/-- Ann's lobby of the room `-`, with its two observers attached. -/
def annsLobby : Client :=
  Client.lobbySetUpListener { Client.launch with
    currentRID := some "-", lobbies := [.viewDidLoad (some "-") (some 5)] } 0

/-- The room `-` as Ann created it. -/
def annsRoom : LeafTree :=
  createAndJoinRoom RealtimeDatabase.empty "-" ⟨60, 5, 0⟩ ⟨"Ann", 0, "uidA"⟩

/-- Bob joins, joins again under another name, and leaves the app. -/
def bobTwice : List LobbyEvent :=
  [.snapshot 0 0, .write (.joinRoomWithRID "-" ⟨"Bob", 0, "uidB"⟩), .snapshot 0 1,
    .write (.joinRoomWithRID "-" ⟨"Bobby", 0, "uidB"⟩), .write (.mark "-" "uidB" 100),
    .snapshot 0 3]

theorem lobby_list_exact_bobTwice :
    ∃ vc, (exec (Watching.step annsRoom) ⟨[], 0, annsLobby⟩ bobTwice).client.lobbies[0]? =
        some vc ∧
      Lists "-" vc (exec RoomOp.apply annsRoom [.joinRoomWithRID "-" ⟨"Bob", 0, "uidB"⟩,
        .joinRoomWithRID "-" ⟨"Bobby", 0, "uidB"⟩, .mark "-" "uidB" 100]) := by
  have hafter : ∀ op ∈ bobTwice.filterMap LobbyEvent.op, AfterCreate "-" op := by
    intro op hop
    simp only [bobTwice, LobbyEvent.op, List.filterMap_cons, List.filterMap_nil, List.mem_cons,
      List.not_mem_nil, or_false] at hop
    rcases hop with rfl | rfl | rfl
    · exact ⟨by decide, by simp⟩
    · exact ⟨by decide, by simp⟩
    · exact ⟨by decide, by simp⟩
  have horder : Along (Watching.step annsRoom) (Watching.InOrder "-" 0) ⟨[], 0, annsLobby⟩
      bobTwice := by
    refine ⟨⟨⟨true, by decide +kernel⟩, by decide, by decide⟩, hafter _ (by decide),
      ⟨⟨false, by decide +kernel⟩, by decide, by decide⟩, hafter _ (by decide),
      hafter _ (by decide), ⟨⟨false, by decide +kernel⟩, ?_, ?_⟩, trivial⟩
    · decide +kernel
    · decide +kernel
  obtain ⟨vc, hvc, hlists, -⟩ := lobby_list_exact (RealtimeDatabase.empty : LeafTree)
    (show IsKey "-" by decide) ⟨60, 5, 0⟩ ⟨"Ann", 0, "uidA"⟩ (c := annsLobby) rfl rfl horder
    bobTwice.dropLast 0 3 [] rfl
  exact ⟨vc, hvc, hlists⟩

/-! ## The client's lobby -/

/-- A snapshot to anyone else's observer does not reach the lobby. -/
theorem lobbies_deliver_other (c : Client) (k : ℕ) {o : Observer} (ho : o.block ≠ .lobby id)
    (db : δ) : (c.deliver k o db).lobbies[id]? = c.lobbies[id]? := by
  obtain ⟨obs, -, heq⟩ := c.deliver_eq k o db
  rw [heq]
  cases hb : o.block with
  | lobby id' =>
    have hne : id' ≠ id := by
      intro he
      exact ho (by rw [hb, he])
    simp only [Client.observeEventBlock]
    split
    · rw [lobbies_performRoomStats, List.getElem?_modify_ne _ _ hne]
    · rw [List.getElem?_modify_ne _ _ hne]
  | stats =>
    simp only [Client.listener]
    split
    · split
      · rw [lobbies_performToResults]
      · rfl
    · rfl
  | setUpLabel =>
    simp only [Client.setUpLabelCompletion]
    split <;> rfl

theorem lobbies_viewWillAppear {c : Client} {vc : QRCodeGeneratorViewController}
    (hvc : c.lobbies[id]? = some vc) (screen : Option Screen) :
    ∃ observed, (c.viewWillAppear screen).lobbies[id]? =
      some { vc with observedRID := observed } := by
  unfold Client.viewWillAppear
  split
  · rename_i id'
    unfold Client.lobbySetUpListener
    split
    · by_cases hid : id' = id
      · subst hid
        exact ⟨_, (List.getElem?_modify_eq ..).trans (congrArg (Option.map _) hvc)⟩
      · exact ⟨vc.observedRID, by simp [List.getElem?_modify_ne _ _ hid, hvc]⟩
    · exact ⟨vc.observedRID, hvc⟩
  · unfold Client.statsSetUpListener
    split
    · exact ⟨vc.observedRID, hvc⟩
    · exact ⟨vc.observedRID, hvc⟩
  · exact ⟨vc.observedRID, hvc⟩

/-- What a step can make of a lobby: its dictionary gets a snapshot laid over it, as the
client sees the state, and its observers go to a room. -/
inductive LobbyStep (env : Env δ) (c : Client) (e : ClientEvent) (id : ℕ)
    (vc : QRCodeGeneratorViewController) : QRCodeGeneratorViewController → Prop
  | same : LobbyStep env c e id vc vc
  | observed (rid : Option String) : LobbyStep env c e id vc { vc with observedRID := rid }
  | told {k i overlaid o db} : e = .snapshot k i overlaid → c.observers[k]? = some o →
      c.view env i overlaid = some db → o.block = .lobby id →
      LobbyStep env c e id vc
        { vc with uidAndNameDict := collectNames db o.ref vc.uidAndNameDict }

theorem lobby_step (env : Env δ) (c : Client) {e : ClientEvent} (hl : e ≠ .relaunch)
    {vc : QRCodeGeneratorViewController} (hvc : c.lobbies[id]? = some vc) :
    ∃ vc', (c.step env e).client.lobbies[id]? = some vc' ∧ LobbyStep env c e id vc vc' := by
  have hsame : (c.step env e).client.lobbies = c.lobbies →
      ∃ vc', (c.step env e).client.lobbies[id]? = some vc' ∧ LobbyStep env c e id vc vc' := by
    intro h
    exact ⟨vc, h ▸ hvc, .same⟩
  by_cases hq : Client.quiet e = true
  · exact hsame (congrArg Client.Face.lobbies (Client.face_step env hq))
  cases e with
  | showSetup =>
    refine hsame ?_
    simp only [Client.step, Client.showSetup]
    split
    · exact Client.present_keeps Client.lobbies (fun _ _ _ => rfl) (c := c) none
        (.setup c.nextSetup) fun _ => rfl
    · rfl
  | backTUI =>
    refine hsame ?_
    simp only [Client.step, Client.backTUI]
    split <;> rfl
  | dismiss =>
    refine hsame ?_
    simp only [Client.step, Client.dismiss]
    split <;> rfl
  | updateTimer =>
    refine hsame ?_
    simp only [Client.step, Client.updateTimer]
    split
    · split
      · exact lobbies_performToResults _ _
      · rfl
    · rfl
  | ack =>
    simp only [Client.step]
    rcases c.ack_cases with ⟨-, heq⟩ | ⟨w, answer, rest, -, -, heq⟩ |
      ⟨w, n, rest, bet, -, -, -, heq⟩
    · exact ⟨vc, heq.symm ▸ hvc, .same⟩
    · exact ⟨vc, heq.symm ▸ hvc, .same⟩
    · -- a new lobby comes after the old ones
      refine ⟨vc, ?_, .same⟩
      have hlt : id < c.lobbies.length := (List.getElem?_eq_some_iff.mp hvc).1
      rw [heq, Client.presentLobby, Client.present]
      split
      · exact (List.getElem?_append_left hlt).trans hvc
      · exact hvc
  | appear =>
    simp only [Client.step]
    rcases c.appear_cases with ⟨-, heq⟩ | ⟨t, rest, obs, -, -, heq⟩
    · exact ⟨vc, heq.symm ▸ hvc, .same⟩
    · rw [heq]
      obtain ⟨observed, hobserved⟩ := lobbies_viewWillAppear
        (c := { c with transitions := rest, observers := obs }) hvc t.appears
      exact ⟨_, hobserved, .observed observed⟩
  | snapshot k i overlaid =>
    simp only [Client.step, Client.snapshot]
    split
    · rename_i o db ho hdb
      by_cases hblock : o.block = .lobby id
      · refine ⟨_, ?_, .told rfl ho hdb hblock⟩
        rw [lobbies_deliver c k hblock db, List.getElem?_modify_eq, hvc]
        rfl
      · exact ⟨vc, (lobbies_deliver_other c k hblock db).trans hvc, .same⟩
    · exact ⟨vc, hvc, .same⟩
  | relaunch => exact absurd rfl hl
  | _ => exact absurd rfl hq

end

end Unplug.App
