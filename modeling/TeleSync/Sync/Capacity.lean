import TeleSync.Client.Owners
import TeleSync.Monitor.Report
import TeleSync.Sync.Announce
import TeleSync.Table.Counter
import TeleSync.Tracker.Order
import TeleSync.Tracker.Rounds
import TeleSync.Wire.TableLayout

/-!
# Tables that fit into packets

A `trans_file_table` has room for `MAX_FILE_ENTRIES` entries, the data of a packet for `MAX_PKT_DATA_LEN` bytes, and
`data_len` for 16 bits; nothing checks one against the other.

* `PacketHas` : a table in a packet whose length is right, and which is received as far as it was sent;
* `Tracker.tablesFilled`, `tablesFilled` : the tables that a task of the tracker or a step of a client puts into
  packets;
* `sharing` : a client's file table while files are scanned, reported and received;
* `WithinCapacity`, `ClientWithinCapacity` : what is put in has 240 entries at most, in terms of the state before;
* `whole_tables_fit_iff` : along every run, all tables fit exactly when every step is within this capacity.
-/

namespace TeleSync
open ChainTable Memory Program Transition

/-! ## One table -/

/-- The most entries that go into a packet. -/
def PACKET_ENTRIES : ℕ := 240

/-- The packet has all of the table: the data has room for it, `data_len` is its length, and a receiver gets its `n` and
its entries, as far as `trans_table_len` counts them. -/
structure PacketHas {η : Type} (K : PacketKind η) (pkt t : Mem) : Prop where
  room : transTableLen t ≤ MAX_PKT_DATA_LEN
  dataLen : (K.dataLen (K.hdr pkt)).toNat = transTableLen t
  received : ∀ dst, tableN (receiveTable K dst pkt) = tableN t ∧
    AgreeOn (receiveTable K dst pkt) t 0 (transTableLen t)

/-- The table is put into a packet for the tracker, from wherever it is in memory. -/
def FitsPtot (tft : TransFileTable) : Prop :=
  tft.length ≤ MAX_FILE_ENTRIES ∧ ∀ t pkt, tableN t = tft.length →
    PacketHas ptotPacket (ptotPacketFill pkt t (transTableLen t)) t

/-- The table is put into a packet for a peer. -/
def FitsTtop (tft : TransFileTable) : Prop :=
  tft.length ≤ MAX_FILE_ENTRIES ∧ ∀ t pkt type, tableN t = tft.length →
    PacketHas ttopPacket (ttopPacketFill pkt type t) t

theorem tableN_write {n : ℕ} (h : n ≤ MAX_FILE_ENTRIES) :
    tableN (write zeroed (CType.offset transFileTableFields 0) 4 n) = n := by
  have hmax : MAX_FILE_ENTRIES = 4096 := rfl
  rw [tableN, read_write_self, BitVec.toInt_ofNat', Nat.mod_eq_of_lt (by omega),
    Int.bmod_eq_of_le (by omega) (by omega)]

theorem Carries.packetHas {η : Type} {K : PacketKind η} {pkt t : Mem} {n : ℕ} (hn : tableN t = n)
    (hle : n ≤ PACKET_ENTRIES) (h : Carries K pkt t (transTableLen t)) : PacketHas K pkt t := by
  have hmax : PACKET_ENTRIES = 240 := rfl
  have hlen := transTableLen_eq hn (by omega)
  have hroom : MAX_PKT_DATA_LEN = 65536 := rfl
  refine ⟨by omega, h.dataLen, fun dst => ?_⟩
  rw [hlen] at h ⊢
  have hagree := (h.agreeUpToLast dst).copied
  refine ⟨congrArg (fun v => (BitVec.ofNat 32 v).toInt) (hagree.read (Nat.zero_le _) ?_), hagree⟩
  have : CType.offset transFileTableFields 0 = 0 := by decide
  omega

theorem not_room {t : Mem} {n : ℕ} (hn : tableN t = n) (hle : n ≤ MAX_FILE_ENTRIES) (h : PACKET_ENTRIES < n) :
    ¬ transTableLen t ≤ MAX_PKT_DATA_LEN := by
  have hmax : PACKET_ENTRIES = 240 := rfl
  have hfile : MAX_FILE_ENTRIES = 4096 := rfl
  have hroom : MAX_PKT_DATA_LEN = 65536 := rfl
  have hlen := transTableLen_eq hn (by omega)
  omega

/-- However a packet is filled: if it carries every table whose length `data_len` can hold, it has the tables of up to
240 entries and no others. -/
theorem forall_packetHas_iff {η ι : Type} {K : PacketKind η} {fill : ι → Mem → Mem} (i : ι)
    (hfill : ∀ i t, transTableLen t < 2 ^ 16 → Carries K (fill i t) t (transTableLen t)) (n : ℕ) :
    (n ≤ MAX_FILE_ENTRIES ∧ ∀ i t, tableN t = n → PacketHas K (fill i t) t) ↔ n ≤ PACKET_ENTRIES := by
  constructor
  · rintro ⟨hle, h⟩
    by_contra hgt
    exact not_room (tableN_write hle) hle (not_le.mp hgt) (h i _ (tableN_write hle)).room
  · intro hle
    have hmax : PACKET_ENTRIES = 240 := rfl
    have hfile : MAX_FILE_ENTRIES = 4096 := rfl
    refine ⟨by omega, fun i t hn => Carries.packetHas hn hle (hfill i t ?_)⟩
    have hlen := transTableLen_eq hn (by omega)
    omega

theorem fitsPtot_iff (tft : TransFileTable) : FitsPtot tft ↔ tft.length ≤ PACKET_ENTRIES := by
  have h := forall_packetHas_iff zeroed (fun pkt t => ptotPacketFill_carries pkt t) tft.length
  rw [FitsPtot, ← h, forall_comm]

theorem fitsTtop_iff (tft : TransFileTable) : FitsTtop tft ↔ tft.length ≤ PACKET_ENTRIES := by
  have h := forall_packetHas_iff (zeroed, 0)
    (fun (p : Mem × ℕ) t => ttopPacketFill_carries p.1 t p.2) tft.length
  rw [FitsTtop, ← h, Prod.forall]
  refine and_congr_right fun _ => ⟨fun hall pkt type t => hall t pkt type, fun hall t pkt type => hall pkt type t⟩

/-! ## The tracker -/

/-- `broadcast_update` fills a packet unless the table is empty. -/
def broadcastFilled (tft : TransFileTable) : List TransFileTable := if tft.length = 0 then [] else [tft]

/-- The tables that the tracker puts into packets for an activity of a connection. -/
def Tracker.tablesFilled (t : Tracker) (conn : ℤ) : PeerActivity → List TransFileTable
  | .register _ _ => []
  | .lifeUpdate _ => []
  | .sync tft => (syncTask t.ft tft).peerTft :: broadcastFilled (syncTask t.ft tft).broadTft
  | .update tft => broadcastFilled (peerFileUpdateTask t.ft tft).newTft
  | .cleanup =>
    broadcastFilled ((transTableFillFrom (fileTableDeleteOwner t.ft (peerTableDelete t.pt conn).2.toUInt32)).map
      fun te => { te with opType := .fileModify })

theorem mem_broadcastFilled {t : Tracker} {tft : TransFileTable} {conn : ℤ} {p : ℤ × TtopPacket}
    (h : p ∈ t.broadcast tft conn) : p.2 = .broadcast tft ∧ tft ∈ broadcastFilled tft := by
  obtain ⟨q, hq, rfl⟩ := List.mem_map.mp h
  unfold broadcastUpdate at hq
  split_ifs at hq with hlen
  · cases hq
  · obtain ⟨pe, -, rfl⟩ := List.mem_map.mp hq
    refine ⟨rfl, ?_⟩
    rw [broadcastFilled, if_neg hlen]
    exact List.mem_singleton_self tft

theorem mem_tablesFilled (ctrInfo : TtopControlInfo) (t : Tracker) (conn : ℤ) (a : PeerActivity) {p : ℤ × TtopPacket}
    (h : p ∈ (t.perform ctrInfo conn a).2) {tft : TransFileTable} (hp : p.2 = .broadcast tft ∨ p.2 = .sync tft) :
    tft ∈ t.tablesFilled conn a := by
  have hbroadcast : ∀ (t' : Tracker) tft' exclusive, p ∈ t'.broadcast tft' exclusive → tft ∈ broadcastFilled tft' := by
    intro t' tft' exclusive hmem
    obtain ⟨hp', hfilled⟩ := mem_broadcastFilled hmem
    rw [hp'] at hp
    rcases hp with heq | heq
    · cases heq
      exact hfilled
    · cases heq
  cases a with
  | register peerid now =>
    rw [List.mem_singleton.mp h] at hp
    rcases hp with heq | heq <;> cases heq
  | lifeUpdate ip => cases h
  | sync tft' =>
    rcases List.mem_cons.mp h with heq | hmem
    · rw [heq] at hp
      rcases hp with heq | heq
      · cases heq
      · cases heq
        exact List.mem_cons_self
    · exact List.mem_cons_of_mem _ (hbroadcast _ _ _ hmem)
  | update tft' =>
    change p ∈ (if (peerFileUpdateTask t.ft tft').newTft.length > 0
      then t.broadcast (peerFileUpdateTask t.ft tft').newTft conn else []) at h
    split_ifs at h
    · exact hbroadcast _ _ _ h
    · cases h
  | cleanup => exact hbroadcast _ _ _ h

/-- How many entries of a sync are new, or newer than what is known, when their turn comes. -/
def newerCount : Stamps → TransFileTable → ℕ
  | _, [] => 0
  | st, te :: tft =>
    (if st te.name < te.timestamp then 1 else 0) +
      newerCount (Function.update st te.name (max (st te.name) te.timestamp)) tft

/-- How many entries of an update are passed on: those that add or modify, and those that delete a file that is known
when their turn comes. -/
def passedOnCount : Stamps → TransFileTable → ℕ
  | _, [] => 0
  | st, te :: tft =>
    (if te.opType = .fileAdd ∨ te.opType = .fileModify ∨ te.opType = .fileDelete ∧ st te.name ≠ ⊥ then 1 else 0) +
      passedOnCount (fun f => leavesStep f (st f) te) tft

/-- What the tracker puts into a packet has no more entries than a packet holds: the files to tell a peer about in
reply to its sync, the news of a sync and of an update, and the files that a leaving peer shared with others. -/
def WithinCapacity (t : Tracker) (e : ℤ × PeerActivity) : Prop :=
  match e.2 with
  | .register _ _ => True
  | .lifeUpdate _ => True
  | .sync tft =>
    (t.ft.entries.filter fun fe => (syncReplyEntry tft fe).isSome).length ≤ PACKET_ENTRIES ∧
      newerCount t.ft.stamp tft ≤ PACKET_ENTRIES
  | .update tft => passedOnCount t.ft.stamp tft ≤ PACKET_ENTRIES
  | .cleanup =>
    (t.ft.entries.filter fun fe =>
      fe.owners.any fun p => p.ip != (peerTableDelete t.pt e.1).2.toUInt32).length ≤ PACKET_ENTRIES

section Counts
variable {ft : FileTable}

theorem length_peerTft (tft : TransFileTable) :
    (syncTask ft tft).peerTft.length = (ft.entries.filter fun fe => (syncReplyEntry tft fe).isSome).length :=
  List.length_filterMap_eq_countP.trans List.countP_eq_length_filter

theorem length_announcedEntry (ft : FileTable) (te : TransFileEntry) :
    (announcedEntry ft te).toList.length = if ft.stamp te.name < te.timestamp then 1 else 0 := by
  unfold announcedEntry
  cases hv : ft.view te.name with
  | none =>
    have hlt : (⊥ : WithBot ℕ) < te.timestamp := WithBot.bot_lt_coe _
    rw [FileTable.stamp_eq_bot.mpr hv, if_pos hlt]
    rfl
  | some r =>
    have hiff : (r.timestamp : WithBot ℕ) < te.timestamp ↔ r.timestamp < te.timestamp := WithBot.coe_lt_coe
    rw [FileTable.stamp_of_view hv]
    by_cases hlt : r.timestamp < te.timestamp
    · rw [if_pos (hiff.mpr hlt)]
      simp [hlt]
    · rw [if_neg (mt hiff.mp hlt)]
      simp [hlt]

theorem length_foldl_syncStep (tft : TransFileTable) (s : SyncState) :
    (tft.foldl syncStep s).broadTft.length = s.broadTft.length + newerCount s.ft.stamp tft := by
  induction tft generalizing s with
  | nil => rfl
  | cons te tft ih =>
    rw [List.foldl_cons, ih, broadTft_syncStep, List.length_append, length_announcedEntry, stamp_syncStep, newerCount,
      add_assoc]

theorem length_newTft_step (ft : FileTable) (te : TransFileEntry) :
    (peerFileUpdateStep ⟨ft, []⟩ te).newTft.length =
      if te.opType = .fileAdd ∨ te.opType = .fileModify ∨ te.opType = .fileDelete ∧ ft.stamp te.name ≠ ⊥ then 1
      else 0 := by
  cases hop : te.opType with
  | fileAdd =>
    obtain ⟨e, he, -⟩ := newTft_updateStep_set ft (Or.inl hop)
    rw [he]
    rfl
  | fileModify =>
    by_cases hb : ft.stamp te.name = ⊥
    · rw [newTft_updateStep_unknown ft hop hb]
      rfl
    · obtain ⟨e, he, -⟩ := newTft_updateStep_set ft (Or.inr ⟨hop, hb⟩)
      rw [he]
      rfl
  | fileDelete =>
    rw [newTft_updateStep_delete ft hop]
    by_cases hb : ft.stamp te.name = ⊥
    · simp [hb]
    · simp [hb]
  | fileNone =>
    rw [updateStep_skip (Or.inl hop)]
    rfl
  | other c =>
    rw [updateStep_skip (Or.inr ⟨c, hop⟩)]
    rfl

theorem length_newTft (hw : ft.Wf) (tft : TransFileTable) :
    (peerFileUpdateTask ft tft).newTft.length = passedOnCount ft.stamp tft := by
  induction tft generalizing ft with
  | nil => rfl
  | cons te tft ih =>
    have hstamp : (peerFileUpdateStep ⟨ft, []⟩ te).ft.stamp = fun f => leavesStep f (ft.stamp f) te :=
      funext (stamp_updateStep (s := ⟨ft, []⟩) hw te)
    rw [peerFileUpdateTask_cons, passedOnCount]
    dsimp only
    rw [List.length_append, length_newTft_step, ih (peerFileUpdateStep_wf (s := ⟨ft, []⟩) hw te), hstamp]

theorem length_deleteOwner (ft : FileTable) (ip : UInt32) :
    (transTableFillFrom (fileTableDeleteOwner ft ip)).length =
      (ft.entries.filter fun fe => fe.owners.any fun p => p.ip != ip).length := by
  have hsome : ∀ fe, (dropOwner ip fe).isSome = fe.owners.any fun p => p.ip != ip := by
    intro fe
    unfold dropOwner
    dsimp only
    rw [Bool.eq_iff_iff]
    split_ifs with hempty
    · simp only [List.isEmpty_iff, List.filter_eq_nil_iff] at hempty
      simpa using hempty
    · simp only [List.isEmpty_iff, List.filter_eq_nil_iff] at hempty
      simpa using hempty
  have hentries : (fileTableDeleteOwner ft ip).entries = ft.entries.filterMap (dropOwner ip) :=
    Scheme.toList_sweep _ _
  rw [transTableFillFrom, List.length_map, hentries, List.length_filterMap_eq_countP, List.countP_eq_length_filter]
  exact congrArg (fun p => (ft.entries.filter p).length) (funext hsome)

theorem broadcastFilled_fits_iff (tft : TransFileTable) :
    (∀ tft' ∈ broadcastFilled tft, FitsTtop tft') ↔ tft.length ≤ PACKET_ENTRIES := by
  unfold broadcastFilled
  split_ifs with hzero
  · rw [hzero]
    exact iff_of_true (fun tft' h => absurd h List.not_mem_nil) (Nat.zero_le _)
  · rw [List.forall_mem_singleton, fitsTtop_iff]

theorem tablesFilled_fit_iff {t : Tracker} (hw : t.ft.Wf) (e : ℤ × PeerActivity) :
    (∀ tft ∈ t.tablesFilled e.1 e.2, FitsTtop tft) ↔ WithinCapacity t e := by
  obtain ⟨conn, a⟩ := e
  cases a with
  | register peerid now => exact iff_of_true (fun tft h => absurd h List.not_mem_nil) trivial
  | lifeUpdate ip => exact iff_of_true (fun tft h => absurd h List.not_mem_nil) trivial
  | sync tft =>
    have hbroad : (syncTask t.ft tft).broadTft.length = newerCount t.ft.stamp tft := by
      show (tft.foldl syncStep ⟨t.ft, []⟩).broadTft.length = _
      rw [length_foldl_syncStep, List.length_nil, Nat.zero_add]
    unfold Tracker.tablesFilled WithinCapacity
    rw [List.forall_mem_cons, fitsTtop_iff, broadcastFilled_fits_iff, length_peerTft, hbroad]
  | update tft =>
    unfold Tracker.tablesFilled WithinCapacity
    rw [broadcastFilled_fits_iff, length_newTft hw]
  | cleanup =>
    unfold Tracker.tablesFilled WithinCapacity
    rw [broadcastFilled_fits_iff, List.length_map, length_deleteOwner]

end Counts

/-! ## A client -/

/-- What happens to a client's file table. -/
inductive ShareEvent where
  /-- an entry of `get_file_table` -/
  | scan (fe : FileEntry)
  /-- `sync_files` sends the table to the tracker -/
  | sync
  /-- a round of `file_monitor_task`, with the monitor table at that time -/
  | report (m : MonitorTable) (buf : EventBuffer)
  /-- an entry from the tracker -/
  | receive (path : HandlerPath) (te : TransFileEntry)

/-- These in any order; a crash ends the run. -/
def sharing (K : Kernel) (myIp : UInt32) : System FileTable ShareEvent where
  step ft
    | .scan fe => some (fileEntryAdd ft fe)
    | .sync => some ft
    | .report m buf => (reportEvents K myIp (Report.start ft) buf.events m).1.map Report.ft
    | .receive path te => some (handleEntry myIp path ft te).1

/-- The tables that the client puts into packets. -/
def tablesFilled (K : Kernel) (myIp : UInt32) (ft : FileTable) : ShareEvent → List TransFileTable
  | .scan _ => []
  | .sync => [transTableFillFrom ft]
  | .report m buf => ((reportEvents K myIp (Report.start ft) buf.events m).1.map Report.entries).toList
  | .receive _ _ => []

/-- What the client puts into a packet has no more entries than a packet holds: its files, and the events that are
reported. -/
def ClientWithinCapacity (K : Kernel) (ft : FileTable) : ShareEvent → Prop
  | .scan _ => True
  | .sync => ft.entries.length ≤ PACKET_ENTRIES
  | .report m buf =>
    ∀ vs, (visits K buf.events m).1 = some vs → (vs.filter fun v => ¬ v.Rejected).length ≤ PACKET_ENTRIES
  | .receive _ _ => True

/-- Every event that is not rejected makes one entry. -/
theorem length_entries_foldl (myIp : UInt32) (s : Report) (vs : List Visit) :
    (vs.foldl (Report.visit myIp) s).entries.length = s.entries.length + (vs.filter fun v => ¬ v.Rejected).length := by
  induction vs generalizing s with
  | nil => rfl
  | cons v vs ih =>
    rw [List.foldl_cons, ih]
    by_cases h : v.Rejected
    · rw [(s.visit_rejected myIp h).1, List.filter_cons_of_neg (by simpa using h)]
    · obtain ⟨te, hentries, -⟩ := s.visit_accepted myIp s.ft h
      rw [hentries, List.filter_cons_of_pos (by simpa using h), List.length_append, List.length_singleton,
        List.length_cons]
      omega

theorem client_tablesFilled_fit_iff (K : Kernel) (myIp : UInt32) (ft : FileTable) (e : ShareEvent) :
    (∀ tft ∈ tablesFilled K myIp ft e, FitsPtot tft) ↔ ClientWithinCapacity K ft e := by
  cases e with
  | scan fe => exact iff_of_true (fun tft h => absurd h List.not_mem_nil) trivial
  | receive path te => exact iff_of_true (fun tft h => absurd h List.not_mem_nil) trivial
  | sync =>
    unfold tablesFilled ClientWithinCapacity
    rw [List.forall_mem_singleton, fitsPtot_iff, transTableFillFrom, List.length_map]
  | report m buf =>
    have hreport : (reportEvents K myIp (Report.start ft) buf.events m).1 =
        (visits K buf.events m).1.map fun vs => vs.foldl (Report.visit myIp) (Report.start ft) := by
      rw [reportEvents_start, Prog.fst_bind_pure]
    show (∀ tft ∈ ((reportEvents K myIp (Report.start ft) buf.events m).1.map Report.entries).toList, FitsPtot tft) ↔
      ∀ vs, (visits K buf.events m).1 = some vs → (vs.filter fun v => ¬ v.Rejected).length ≤ PACKET_ENTRIES
    rw [hreport]
    cases (visits K buf.events m).1 with
    | none => simp
    | some vs =>
      rw [Option.map_some, Option.map_some, Option.toList_some, List.forall_mem_singleton, fitsPtot_iff,
        length_entries_foldl]
      show 0 + _ ≤ PACKET_ENTRIES ↔ _
      rw [Nat.zero_add]
      exact ⟨fun h vs' hvs => Option.some.inj hvs ▸ h, fun h => h vs rfl⟩

/-! ## Runs -/

/-- **Whole tables in packets.** Along every run of the tracker's tasks, and along every run of a client, all tables
that are put into packets fit exactly when each step puts in 240 entries at most. -/
theorem whole_tables_fit_iff (ctrInfo : TtopControlInfo) (es : List (ℤ × PeerActivity)) (K : Kernel) (myIp : UInt32)
    (cs : List ShareEvent) :
    ((tracking ctrInfo).RunMeets (fun t e => ∀ tft ∈ t.tablesFilled e.1 e.2, FitsTtop tft) Tracker.start es ↔
      (tracking ctrInfo).RunMeets WithinCapacity Tracker.start es) ∧
    ((sharing K myIp).RunMeets (fun ft e => ∀ tft ∈ tablesFilled K myIp ft e, FitsPtot tft) fileTableInit cs ↔
      (sharing K myIp).RunMeets (ClientWithinCapacity K) fileTableInit cs) := by
  constructor
  · refine System.runMeets_congr (I := fun t => t.ft.Wf) ?_ (fun t e hw => tablesFilled_fit_iff hw e)
      FileTable.wf_init es
    rintro t e t' hw ⟨⟩
    exact System.run_invariant (fun ft r ft' hft hs => by cases hs; exact roundStep_wf hft r) hw
      (run_roundsOf ctrInfo t e.1 e.2)
  · exact System.runMeets_congr (I := fun _ => True) (fun _ _ _ _ _ => trivial)
      (fun ft e _ => client_tablesFilled_fit_iff K myIp ft e) trivial cs

/-- The name `1/xy` of file number `i`, where `x` and `y` are letters. -/
def numberedName (i : ℕ) : Name :=
  (toName [49, SLASH, UInt8.ofNat (97 + i / 16), UInt8.ofNat (97 + i % 16)]).getD Name.empty

theorem numberedName_bytes {i : ℕ} (h : i < 256) :
    (numberedName i).bytes = [49, SLASH, UInt8.ofNat (97 + i / 16), UInt8.ofNat (97 + i % 16)] := by
  have hletter : ∀ k < 16, UInt8.ofNat (97 + k) ≠ 0 := by decide
  have h1 := hletter (i / 16) (by omega)
  have h2 := hletter (i % 16) (by omega)
  have hslash : SLASH ≠ 0 := by decide
  unfold numberedName toName
  rw [dif_pos]
  · rfl
  · refine ⟨?_, (by decide : 4 < MAX_NAME_LEN)⟩
    simp only [List.mem_cons, List.not_mem_nil, or_false, not_or]
    exact ⟨by decide, hslash.symm, h1.symm, h2.symm⟩

theorem numberedName_injOn {i j : ℕ} (hi : i < 256) (hj : j < 256) (h : numberedName i = numberedName j) : i = j := by
  have hbytes := congrArg Name.bytes h
  rw [numberedName_bytes hi, numberedName_bytes hj] at hbytes
  simp only [List.cons.injEq, and_true, true_and] at hbytes
  have hdiv := congrArg UInt8.toNat hbytes.1
  have hmod := congrArg UInt8.toNat hbytes.2
  rw [UInt8.toNat_ofNat', UInt8.toNat_ofNat'] at hdiv hmod
  omega

/-- `get_file_table` finds `n` files. -/
def scanFiles (myIp : UInt32) (n : ℕ) : List ShareEvent :=
  (List.range n).map fun i => .scan ⟨⟨1, .regular, [⟨myIp, P2P_PORT⟩]⟩, numberedName i⟩

theorem run_scanFiles (K : Kernel) (myIp : UInt32) (n : ℕ) :
    ∃ ft, (sharing K myIp).run fileTableInit (scanFiles myIp n) = some ft ∧ ft.entries.length = n := by
  induction n with
  | zero =>
    refine ⟨fileTableInit, rfl, ?_⟩
    rw [entries_init]
    rfl
  | succ n ih =>
    obtain ⟨ft, hrun, hlen⟩ := ih
    unfold scanFiles at hrun ⊢
    rw [List.range_succ, List.map_append]
    refine ⟨_, System.run_append_eq_some.mpr ⟨ft, hrun, rfl⟩, ?_⟩
    rw [← hlen]
    exact Scheme.length_toList_addHead _ _ _

/-- A client starts on a directory with 241 files: the 65556 bytes of its table do not fit into a packet, and `data_len`
is 20. -/
theorem table_of_241_files :
    (((List.range 241).map numberedName).Nodup ∧
      ¬ (sharing plainKernel 7).RunMeets (fun ft e => ∀ tft ∈ tablesFilled plainKernel 7 ft e, FitsPtot tft)
        fileTableInit (scanFiles 7 241 ++ [.sync])) ∧
    ∀ t pkt, tableN t = 241 → transTableLen t = 65556 ∧
      (ptotPacketHeader (ptotPacketFill pkt t (transTableLen t))).dataLen = 20 := by
  refine ⟨⟨?_, fun h => ?_⟩, fun t pkt hn => ?_⟩
  · refine List.Nodup.map_on (fun i hi j hj h => ?_) List.nodup_range
    rw [List.mem_range] at hi hj
    exact numberedName_injOn (by omega) (by omega) h
  · obtain ⟨ft, hrun, hlen⟩ := run_scanFiles plainKernel 7 241
    have hfits := (client_tablesFilled_fit_iff plainKernel 7 ft .sync).mp (h.last hrun)
    have hle : ft.entries.length ≤ 240 := hfits
    omega
  · have hlen : transTableLen t = 65556 := transTableLen_eq (n := 241) hn (by omega)
    refine ⟨hlen, ?_⟩
    rw [hlen]
    show UInt16.ofNat (read (write _ _ 2 65556) _ 2) = 20
    rw [read_write_self]
    rfl

end TeleSync
