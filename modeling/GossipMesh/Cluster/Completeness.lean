import GossipMesh.Foundation.FifoFlood
import GossipMesh.Cluster.LosslessNode

/-!
# Completeness over lossless links

A lossless cluster, seen from one topic, is a flooding network: the processes
are the nodes with their marks, the channels the edges of the overlay graph
with what is under way on them.  Every handler is a sequence of flooding steps.
A handler takes a message off its queue before it processes it, so `held` keeps
the entries of the message at hand in front of their channel.
-/

namespace GossipMesh.Cluster.Lossless

open GossipMesh.Foundation GossipMesh.Engine

section Abstraction

variable {ι : Type} (T : Topology ι) (topic : UInt16) (p : UInt64 → Payload)
  (origin : ι)

abbrev Held := T.Edge → List GossipEntry

def flooding (held : Held T) (net : ι → Node) : FifoFlood.State ι T.Edge where
  mark v := ((net v).mark topic).toNat
  flow k := seqsOf topic (held k ++ (net k.1.src).underWay T k.1)

structure Sound (held : Held T) (net : ι → Node) : Prop where
  receiving : ∀ v, Receiving T topic p origin v (net v)
  sending : ∀ v, Sending T topic p v (net v)
  known : ∀ k : T.Edge,
    (net k.1.src).known T topic k.1 ≤ (net k.1.dst).mark topic
  taken : ∀ k, ∀ e ∈ held k, Good topic p e
  flood : FifoFlood.Inv (fun k : T.Edge => k.1.src) (fun k => k.1.dst) origin
    (flooding T topic held net)

end Abstraction

variable {ι : Type} [DecidableEq ι] {T : Topology ι} {topic : UInt16}
  {p : UInt64 → Payload} {origin v : ι} {n' : Node} {entry : GossipEntry}
  {net : ι → Node} {held held' : Held T}

/-! ## Steps of one node -/

theorem flooding_update_mark (held : Held T) (net : ι → Node) (v : ι) (n' : Node) :
    (flooding T topic held (Function.update net v n')).mark =
      Function.update (flooding T topic held net).mark v (n'.mark topic).toNat := by
  funext w
  by_cases hw : w = v
  · subst hw
    simp [flooding]
  · simp [flooding, hw]

theorem flooding_update_flow (hflow : ∀ k : T.Edge, k.1.src = v →
      seqsOf topic (n'.underWay T k.1) = seqsOf topic ((net v).underWay T k.1)) :
    (flooding T topic held (Function.update net v n')).flow =
      (flooding T topic held net).flow := by
  funext k
  by_cases hk : k.1.src = v
  · simp only [flooding, seqsOf_append, hk, Function.update_self, hflow k hk]
  · simp only [flooding, Function.update_of_ne hk]

theorem mark_le_update (hmark : (net v).mark topic ≤ n'.mark topic) (w : ι) :
    (net w).mark topic ≤ (Function.update net v n' w).mark topic := by
  by_cases hw : w = v
  · subst hw
    rw [Function.update_self]
    exact hmark
  · rw [Function.update_of_ne hw]

theorem flooding_drop_head (net : ι → Node) {k : T.Edge}
    {entries : List GossipEntry} (hheld : held k = entry :: entries)
    (htopic : entry.topic = topic) :
    (flooding T topic held net).flow k = entry.seq.toNat ::
      (flooding T topic (Function.update held k entries) net).flow k ∧
    (flooding T topic (Function.update held k entries) net).flow =
      Function.update (flooding T topic held net).flow k
        ((flooding T topic (Function.update held k entries) net).flow k) := by
  refine ⟨?_, funext fun k' => ?_⟩
  · simp only [flooding, hheld, Function.update_self, List.cons_append]
    rw [seqsOf_cons_self htopic]
  · by_cases hk' : k' = k
    · subst hk'
      rw [Function.update_self]
    · simp only [flooding, Function.update_of_ne hk']

theorem flooding_drop_other {k : T.Edge} {entries : List GossipEntry}
    (hheld : held k = entry :: entries) (htopic : entry.topic ≠ topic) :
    (flooding T topic (Function.update held k entries) net).flow =
      (flooding T topic held net).flow := by
  funext k'
  by_cases hk' : k' = k
  · subst hk'
    simp only [flooding, hheld, Function.update_self, List.cons_append]
    rw [seqsOf_cons_ne htopic]
  · simp only [flooding, Function.update_of_ne hk']

theorem forwards_update (htopic : entry.topic = topic)
    (hflow : ∀ k : T.Edge, k.1.src = v → ∃ copies, n'.underWay T k.1 =
        (net v).underWay T k.1 ++ List.replicate copies entry ∧
      (copies = 0 →
        entry.seq ≤ (Function.update net v n' k.1.dst).mark topic)) :
    FifoFlood.Forwards (fun k : T.Edge => k.1.src) (fun k => k.1.dst)
      (flooding T topic held (Function.update net v n')).mark v entry.seq.toNat
      (flooding T topic held net).flow
      (flooding T topic held (Function.update net v n')).flow := by
  intro k
  split
  · next hk =>
      obtain ⟨copies, hunder, hskip⟩ := hflow k hk
      refine ⟨copies, ?_, fun hzero => UInt64.le_iff_toNat_le.mp (hskip hzero)⟩
      simp only [flooding, hk, Function.update_self, hunder, seqsOf_append,
        seqsOf_replicate_self htopic, List.append_assoc]
  · next hk => simp only [flooding, Function.update_of_ne hk]

namespace Sound

theorem update (h : Sound T topic p origin held net)
    (hreceiving : Receiving T topic p origin v n')
    (hsending : Sending T topic p v n')
    (hmark : (net v).mark topic ≤ n'.mark topic)
    (hknown : ∀ k : T.Edge, k.1.src = v →
      n'.known T topic k.1 ≤ (net k.1.dst).mark topic)
    (hheld : ∀ k, ∀ e ∈ held' k, Good topic p e)
    (hflood : FifoFlood.Inv (fun k : T.Edge => k.1.src) (fun k => k.1.dst) origin
      (flooding T topic held' (Function.update net v n'))) :
    Sound T topic p origin held' (Function.update net v n') where
  receiving := forall_update h.receiving hreceiving
  sending := forall_update h.sending hsending
  known k := by
    refine le_trans ?_ (mark_le_update hmark k.1.dst)
    by_cases hsrc : k.1.src = v
    · rw [hsrc, Function.update_self]
      exact hknown k hsrc
    · rw [Function.update_of_ne hsrc]
      exact h.known k
  taken := hheld
  flood := hflood

theorem stutter (h : Sound T topic p origin held net)
    (hreceiving : Receiving T topic p origin v n')
    (hsending : Sending T topic p v n')
    (hmark : n'.mark topic = (net v).mark topic)
    (hknown : ∀ k : T.Edge, k.1.src = v →
      n'.known T topic k.1 ≤ (net k.1.dst).mark topic)
    (hflow : ∀ k : T.Edge, k.1.src = v →
      seqsOf topic (n'.underWay T k.1) = seqsOf topic ((net v).underWay T k.1)) :
    Sound T topic p origin held (Function.update net v n') := by
  refine h.update hreceiving hsending (le_of_eq hmark.symm) hknown h.taken ?_
  have hsame : flooding T topic held (Function.update net v n') =
      flooding T topic held net := by
    refine FifoFlood.State.ext ?_ (flooding_update_flow hflow)
    rw [flooding_update_mark, hmark]
    exact Function.update_eq_self v _
  rw [hsame]
  exact h.flood

theorem enqueue (h : Sound T topic p origin held net)
    (henqueue : (net v).enqueue entry = some n') (hgood : Good topic p entry)
    (hnext : entry.topic = topic → v = origin ∧
      entry.seq.toNat = (net v).published topic + 1) :
    Sound T topic p origin held (Function.update net v n') := by
  have hreceiving := (h.receiving v).enqueue henqueue hnext
  have hsending := (h.sending v).enqueue henqueue hgood
  cases Node.enqueue_eq_some henqueue
  exact h.stutter hreceiving hsending rfl
    (fun k hk => hk ▸ h.known k) (fun k _ => by cases k.1 <;> rfl)

theorem flush (h : Sound T topic p origin held net) {order : List UInt16}
    (hflush : (net v).flush order = some n') :
    Sound T topic p origin held (Function.update net v n') := by
  have hoverlay := (h.receiving v).overlay
  have hmark : n'.mark topic = (net v).mark topic := by
    rw [Node.flush_eq_some hflush]
    rfl
  refine h.stutter ((h.receiving v).flush hflush)
    ((h.sending v).flush hoverlay hflush) hmark (fun k hk => ?_) (fun k hk => ?_)
  all_goals
    have hsame := Node.underWay_flush (by rw [hk]; exact hoverlay) hflush
  · rw [hsame.2, ← hk]
    exact h.known k
  · rw [hsame.1]

theorem gapTimer (h : Sound T topic p origin held net) {other : UInt16}
    {act : Engine.Action} (hact : (net v).gapTimer other act = some n')
    (hblocked : ∀ gap s, Slot.Quiet s → Slot.step gap s act = none) :
    Sound T topic p origin held (Function.update net v n') := by
  have hreceiving := (h.receiving v).gapTimer hact hblocked
  have hsending := (h.sending v).gapTimer hact
  obtain ⟨o, -, rfl⟩ := Option.map_eq_some_iff.mp hact
  exact h.stutter hreceiving hsending rfl
    (fun k hk => hk ▸ h.known k) (fun k _ => by cases k.1 <;> rfl)

theorem updateSender (h : Sound T topic p origin held net) {u : ι}
    {sender : String} {marks : List TopicSeq} (hsender : T.Attributed v sender u)
    (hmarks : ∀ m ∈ marks, m.topic = topic → m.seq ≤ (net u).mark topic) :
    Sound T topic p origin held (Function.update net v
      ((net v).withEngine ((net v).engine.updateSender sender marks))) := by
  refine h.stutter ((h.receiving v).updateSender sender marks)
    ((h.sending v).updateSender sender marks) (by simp [Node.withEngine, Node.mark])
    (fun k hk => ?_) (fun k hk => by rw [Node.underWay_updateSender])
  refine Node.known_updateSender (hk ▸ h.known k) fun hid => ?_
  rw [hsender.dst_eq k hk hid]
  exact hmarks

theorem runLocal (h : Sound T topic p origin held net)
    {rest : List GossipEntry} (hlocal : (net v).engine.localCh = entry :: rest)
    (first : RangeFirst) :
    Sound T topic p origin held
      (Function.update net v ((net v).runLocal first entry rest)) := by
  have hoverlay := (h.receiving v).overlay
  have hreceiving := (h.receiving v).runLocal hlocal first
  have hsending := (h.sending v).runLocal hoverlay hlocal first
  have hmark := (net v).mark_runLocal first entry rest topic
  have hknown : ∀ k : T.Edge, k.1.src = v →
      ((net v).runLocal first entry rest).known T topic k.1 ≤
        (net k.1.dst).mark topic := by
    intro k hk
    rw [Node.known_runLocal]
    exact hk ▸ h.known k
  have hflow : ∀ k : T.Edge, k.1.src = v → ∃ copies,
      ((net v).runLocal first entry rest).underWay T k.1 =
        (net v).underWay T k.1 ++ List.replicate copies entry ∧
      (copies = 0 → entry.seq ≤ (net v).known T entry.topic k.1) := by
    intro k hk
    obtain ⟨copies, hunder, hskip⟩ := Node.underWay_runLocal first rest
      (by rw [hk]; exact hoverlay) k.2
    exact ⟨copies, hunder, fun hzero =>
      (hskip hzero).resolve_left (T.nodeID_ne k.1.dst)⟩
  by_cases htopic : entry.topic = topic
  · obtain ⟨rfl, hseq, -⟩ := (h.receiving v).head hlocal htopic
    have hle : (net v).engine.seen.slotSeqs topic ≤ entry.seq :=
      UInt64.le_iff_toNat_le.mpr (by unfold Node.mark at hseq; omega)
    rw [htopic, Function.update_self, max_eq_right hle] at hmark
    have hgrow : (net v).mark topic ≤ ((net v).runLocal first entry rest).mark topic :=
      hmark ▸ hle
    refine h.update hreceiving hsending hgrow hknown h.taken ?_
    have hnext : (flooding T topic held net).mark v + 1 = entry.seq.toNat :=
      hseq.symm
    refine h.flood.step (.publish ?_ ?_)
    · rw [flooding_update_mark, hmark, hnext]
    · rw [hnext]
      refine forwards_update htopic fun k hk => ?_
      obtain ⟨copies, hunder, hskip⟩ := hflow k hk
      refine ⟨copies, hunder, fun hzero => ?_⟩
      have hknows := hskip hzero
      rw [htopic, ← hk] at hknows
      exact le_trans (le_trans hknows (h.known k)) (mark_le_update hgrow k.1.dst)
  · rw [Function.update_of_ne (Ne.symm htopic)] at hmark
    refine h.stutter hreceiving hsending hmark hknown fun k hk => ?_
    obtain ⟨copies, hunder, -⟩ := hflow k hk
    rw [hunder, seqsOf_append, seqsOf_replicate_ne htopic, List.append_nil]

/-! ## Receiving a message -/

theorem take (h : Sound T topic p origin (fun _ => []) net) (k : T.Edge)
    {entries : List GossipEntry} (hengine : n'.engine = (net k.1.src).engine)
    (hreceiving : Receiving T topic p origin k.1.src n')
    (hsending : Sending T topic p k.1.src n')
    (hgood : ∀ e ∈ entries, Good topic p e)
    (hhead : (net k.1.src).underWay T k.1 = entries ++ n'.underWay T k.1)
    (hothers : ∀ k' : T.Edge, k'.1.src = k.1.src → k' ≠ k →
      n'.underWay T k'.1 = (net k.1.src).underWay T k'.1) :
    Sound T topic p origin (Function.update (fun _ => []) k entries)
      (Function.update net k.1.src n') := by
  have hmark : n'.mark topic = (net k.1.src).mark topic := by
    rw [Node.mark, hengine, Node.mark]
  refine h.update hreceiving hsending (le_of_eq hmark.symm) (fun k' hk' => ?_)
    (fun k' => ?_) ?_
  · have hsame : n'.known T topic k'.1 = (net k.1.src).known T topic k'.1 := by
      cases k'.1 <;> simp only [Node.known, hengine]
    rw [hsame, ← hk']
    exact h.known k'
  · by_cases hk' : k' = k
    · subst hk'
      simpa using hgood
    · simp [hk']
  · have hsame : flooding T topic (Function.update (fun _ => []) k entries)
        (Function.update net k.1.src n') = flooding T topic (fun _ => []) net := by
      refine FifoFlood.State.ext ?_ (funext fun k' => ?_)
      · rw [flooding_update_mark, hmark]
        exact Function.update_eq_self _ _
      · by_cases hk' : k' = k
        · subst hk'
          simp only [flooding, Function.update_self, List.nil_append, hhead]
        · simp only [flooding, Function.update_of_ne hk', List.nil_append]
          by_cases hsrc : k'.1.src = k.1.src
          · rw [hsrc, Function.update_self, hothers k' hsrc hk']
          · rw [Function.update_of_ne hsrc]
    rw [hsame]
    exact h.flood

theorem taken_tail (h : Sound T topic p origin held net) {k : T.Edge}
    {entries : List GossipEntry} (hheld : held k = entry :: entries) (k' : T.Edge) :
    ∀ e ∈ Function.update held k entries k', Good topic p e := by
  intro e he
  by_cases hk' : k' = k
  · subst hk'
    rw [Function.update_self] at he
    exact h.taken k' e (by simp [hheld, he])
  · rw [Function.update_of_ne hk'] at he
    exact h.taken k' e he

theorem turn (h : Sound T topic p origin held net) {k : T.Edge}
    {entries : List GossipEntry} (hheld : held k = entry :: entries)
    (htopic : entry.topic = topic) (hnew : (net k.1.dst).mark topic < entry.seq) :
    entry.seq.toNat = ((net k.1.dst).mark topic).toNat + 1 ∧
      entry.seq ≤ (net k.1.src).mark topic ∧ k.1.dst ≠ origin := by
  obtain ⟨hnext, hsent, horigin⟩ := h.flood.accept_next
    (flooding_drop_head net hheld htopic).1 (UInt64.lt_iff_toNat_lt.mp hnew)
  exact ⟨hnext, UInt64.le_iff_toNat_le.mpr hsent, horigin⟩

omit [DecidableEq ι] in
theorem underWay_process (h : Sound T topic p origin held net) (k : T.Edge)
    (first : RangeFirst) (sender : String) (entry : GossipEntry) {k' : T.Edge}
    (hk' : k'.1.src = k.1.dst) :
    ∃ copies,
      ((net k.1.dst).pass ((net k.1.dst).engine.process first sender
        entry)).underWay T k'.1 =
        (net k.1.dst).underWay T k'.1 ++ List.replicate copies entry ∧
      (¬(net k.1.dst).mark entry.topic < entry.seq → copies = 0) ∧
      ((net k.1.dst).mark entry.topic < entry.seq → copies = 0 →
        T.nodeID k'.1.dst = sender ∨
          entry.seq ≤ (net k.1.dst).known T entry.topic k'.1) :=
  Node.underWay_process first sender (by rw [hk']; exact (h.receiving k.1.dst).overlay) k'.2

private theorem flooding_process_other (h : Sound T topic p origin held net) (k : T.Edge)
    {entries : List GossipEntry} (hheld : held k = entry :: entries)
    (htopic : entry.topic ≠ topic) (sender : String) (first : RangeFirst) :
    flooding T topic (Function.update held k entries)
      (Function.update net k.1.dst ((net k.1.dst).pass
        ((net k.1.dst).engine.process first sender entry))) =
      flooding T topic held net := by
  have hmark := (net k.1.dst).mark_process first sender entry topic
  rw [if_neg (Ne.symm htopic)] at hmark
  refine FifoFlood.State.ext ?_ ?_
  · rw [flooding_update_mark, hmark]
    exact Function.update_eq_self k.1.dst _
  · rw [← flooding_drop_other hheld htopic]
    refine flooding_update_flow fun k' hk' => ?_
    obtain ⟨copies, hunder, -⟩ := h.underWay_process k first sender entry hk'
    rw [hunder, seqsOf_append, seqsOf_replicate_ne htopic, List.append_nil]

private theorem flood_process (h : Sound T topic p origin held net) (k : T.Edge)
    {entries : List GossipEntry} (hheld : held k = entry :: entries)
    {sender : String} (hsender : T.Attributed k.1.dst sender k.1.src)
    (first : RangeFirst) :
    FifoFlood.Inv (fun k : T.Edge => k.1.src) (fun k => k.1.dst) origin
      (flooding T topic (Function.update held k entries)
        (Function.update net k.1.dst ((net k.1.dst).pass
          ((net k.1.dst).engine.process first sender entry)))) := by
  by_cases htopic : entry.topic = topic
  · obtain ⟨hhead, hrest⟩ := flooding_drop_head net hheld htopic
    have hmark := (net k.1.dst).mark_process first sender entry topic
    subst htopic
    rw [if_pos rfl] at hmark
    by_cases hnew : (net k.1.dst).mark entry.topic < entry.seq
    · obtain ⟨-, hsent, -⟩ := h.turn hheld rfl hnew
      rw [max_eq_right (le_of_lt hnew)] at hmark
      refine h.flood.step (.accept k _ _ hhead (UInt64.lt_iff_toNat_lt.mp hnew) ?_ ?_)
      · rw [flooding_update_mark, hmark]
        rfl
      · rw [← hrest]
        refine forwards_update rfl fun k' hk' => ?_
        obtain ⟨copies, hunder, -, hskip⟩ := h.underWay_process k first sender entry hk'
        refine ⟨copies, hunder, fun hzero => ?_⟩
        refine le_trans ?_ (mark_le_update (hmark ▸ le_of_lt hnew) k'.1.dst)
        -- a channel without a copy ends at the sender, or at a peer whose marks cover it
        rcases hskip hnew hzero with hid | hknows
        · rw [hsender.dst_eq k' hk' hid]
          exact hsent
        · rw [← hk'] at hknows
          exact le_trans hknows (h.known k')
    · rw [max_eq_left (not_lt.mp hnew)] at hmark
      refine h.flood.step (.drop k _ _ hhead
        (UInt64.le_iff_toNat_le.mp (not_lt.mp hnew)) ?_ ?_)
      · rw [flooding_update_mark, hmark]
        exact Function.update_eq_self k.1.dst _
      · rw [← hrest]
        refine flooding_update_flow fun k' hk' => ?_
        obtain ⟨copies, hunder, hnone, -⟩ := h.underWay_process k first sender entry hk'
        rw [hunder, hnone hnew, List.replicate_zero, List.append_nil]
  · rw [h.flooding_process_other k hheld htopic sender first]
    exact h.flood

theorem process (h : Sound T topic p origin held net) (k : T.Edge)
    {entries : List GossipEntry} (hheld : held k = entry :: entries)
    {sender : String} (hsender : T.Attributed k.1.dst sender k.1.src)
    (first : RangeFirst) :
    Sound T topic p origin (Function.update held k entries)
      (Function.update net k.1.dst ((net k.1.dst).pass
        ((net k.1.dst).engine.process first sender entry))) := by
  have hgood : Good topic p entry := h.taken k entry (by simp [hheld])
  have hreceiving := (h.receiving k.1.dst).process hgood (fun htopic hnew =>
    have hturn := h.turn hheld htopic hnew
    ⟨hturn.2.2, le_of_eq hturn.1⟩) first sender
  have hsending := (h.sending k.1.dst).process (h.receiving k.1.dst).overlay hgood
    first sender
  refine h.update hreceiving hsending ?_ (fun k' hk' => ?_) (h.taken_tail hheld)
    (h.flood_process k hheld hsender first)
  · rw [Node.mark_process]
    split
    · exact le_max_left _ _
    · exact le_refl _
  · rw [Node.known_process, ← hk']
    exact h.known k'

theorem processAll (k : T.Edge) {sender : String}
    (hsender : T.Attributed k.1.dst sender k.1.src) (first : RangeFirst)
    (entries : List GossipEntry)
    (h : Sound T topic p origin (Function.update (fun _ => []) k entries) net) :
    Sound T topic p origin (fun _ => [])
      (Function.update net k.1.dst ((net k.1.dst).pass
        ((net k.1.dst).engine.processAll first sender entries))) := by
  induction entries generalizing net with
  | nil =>
      rw [Function.update_eq_self] at h
      rw [GossipEngine.processAll, Node.pass_nil]
      exact (Function.update_eq_self k.1.dst net).symm ▸ h
  | cons entry entries ih =>
      have hfirst := h.process k (Function.update_self k _ _) hsender first
      rw [Function.update_idem] at hfirst
      have hrest := ih hfirst
      rw [Function.update_self, Function.update_idem, Node.pass_pass] at hrest
      exact hrest

private theorem popEager (h : Sound T topic p origin (fun _ => []) net) {u : ι}
    {s : EagerSend} {rest : List EagerSend}
    (hqueue : (net u).eagerOut (T.addr v) = s :: rest)
    (hedge : T.IsEdge (.eager u v)) :
    Sound T topic p origin
      (Function.update (fun _ => []) ⟨.eager u v, hedge⟩ [s.entry])
      (Function.update net u ((net u).popEager (T.addr v))) := by
  have hs : s ∈ (net u).eagerOut (T.addr v) := by simp [hqueue]
  have hgood := (h.sending u).good s.entry (.eagerOut _ s hs rfl)
  refine h.take ⟨.eager u v, hedge⟩ rfl ((h.receiving u).congr rfl rfl rfl rfl)
    ((h.sending u).popEager _) (by simpa using hgood) ?_ fun k hsrc hk => ?_
  · simp [Node.underWay, Node.popEager, Channel.src, hqueue]
  · refine Node.underWay_popEager_of_ne T _ fun heq => hk (Subtype.ext ?_)
    rw [heq, hsrc]
    rfl

private theorem popLazy (h : Sound T topic p origin (fun _ => []) net) {u : ι}
    {batch : LazyBatch} {rest : List LazyBatch}
    (hqueue : (net u).lazyOut (T.addr v) = batch :: rest)
    (hedge : T.IsEdge (.lazyBatch u v)) :
    Sound T topic p origin
      (Function.update (fun _ => []) ⟨.lazyBatch u v, hedge⟩ batch.entries)
      (Function.update net u ((net u).popLazy (T.addr v))) := by
  have hb : batch ∈ (net u).lazyOut (T.addr v) := by simp [hqueue]
  refine h.take ⟨.lazyBatch u v, hedge⟩ rfl ((h.receiving u).congr rfl rfl rfl rfl)
    ((h.sending u).popLazy _) (fun e he => ?_) ?_ fun k hsrc hk => ?_
  · exact (h.sending u).good e (.lazyOut _ batch hb he)
  · simp [Node.underWay, Node.popLazy, Channel.src, hqueue]
  · refine Node.underWay_popLazy_of_ne T _ fun heq => hk (Subtype.ext ?_)
    rw [heq, hsrc]
    rfl

theorem eager (h : Sound T topic p origin (fun _ => []) net) {u : ι}
    {s : EagerSend} {rest : List EagerSend}
    (hqueue : (net u).eagerOut (T.addr v) = s :: rest) {sender : String}
    (hsender : T.Attributed v sender u) (first : RangeFirst) :
    Sound T topic p origin (fun _ => [])
      (Function.update (Function.update net u ((net u).popEager (T.addr v))) v
        ((Function.update net u ((net u).popEager (T.addr v)) v).onEager sender
          first s)) := by
  have hs : s ∈ (net u).eagerOut (T.addr v) := by simp [hqueue]
  have hgood := (h.sending u).good s.entry (.eagerOut _ s hs rfl)
  have hedge : T.IsEdge (.eager u v) := (h.sending u).eagerTo _ s hs
  have hprocess := (h.popEager hqueue hedge).process _
    (Function.update_self _ _ _) hsender first
  rw [Function.update_idem, Function.update_eq_self] at hprocess
  have harrive := Node.arriving_eq (s := s) hgood.fits
  simp only [Node.onEager, harrive, GossipEngine.onEagerReceive, EagerSend.msg,
    decodeEagerMessage_encode]
  exact hprocess

theorem lazyBatch (h : Sound T topic p origin (fun _ => []) net) {u : ι}
    {z : Zstd} {batch : LazyBatch} {rest : List LazyBatch}
    (hqueue : (net u).lazyOut (T.addr v) = batch :: rest) (hfits : batch.Fits z)
    {sender : String} (hsender : T.Attributed v sender u) (first : RangeFirst) :
    Sound T topic p origin (fun _ => [])
      (Function.update (Function.update net u ((net u).popLazy (T.addr v))) v
        ((Function.update net u ((net u).popLazy (T.addr v)) v).onLazy z sender
          first batch)) := by
  have hb : batch ∈ (net u).lazyOut (T.addr v) := by simp [hqueue]
  have hedge : T.IsEdge (.lazyBatch u v) := (h.sending u).lazyTo _ batch hb
  have hmarks : ∀ m ∈ batch.senderHighWaterMarks, m.topic = topic → m.seq ≤
      (Function.update net u ((net u).popLazy (T.addr v)) u).mark topic := by
    rw [Function.update_self]
    exact (h.sending u).marks _ batch hb
  have hall := processAll _ hsender first _
    ((h.popLazy hqueue hedge).updateSender hsender hmarks)
  have hread := readLazyBatch_write z batch [] hfits
  rw [List.append_nil] at hread
  simp only [Node.onLazy, GossipEngine.onLazyBatchReceive, hread]
  simp only [Channel.dst, Function.update_self, Function.update_idem] at hall
  exact hall

end Sound

/-! ## Whole runs -/

/--
What is assumed of a step.  The origin alone enqueues entries of the topic, with
the numbers 1, 2, 3, ...; messages and batches fit their frames; and the string
a receive handler is given is not the node ID of a peer other than the sender.
-/
def Allowed (T : Topology ι) (z : Zstd) (topic : UInt16) (p : UInt64 → Payload)
    (origin : ι) (net : ι → Node) : Label ι → Prop
  | .enqueue v entry => Good topic p entry ∧
      (entry.topic = topic →
        v = origin ∧ entry.seq.toNat = (net v).published topic + 1)
  | .flush v order =>
      ∀ b ∈ ((net v).engine.flushLazyBatches order).2, b.batch.Fits z
  | .eager u v sender _ | .lazyBatch u v sender _ => T.Attributed v sender u
  | .handleLocal _ _ => True
  | .expire _ _ _ | .repairReply _ _ _ _ | .repairFail _ _ _ => True

instance decidableAllowed (T : Topology ι) (z : Zstd) (topic : UInt16)
    (p : UInt64 → Payload) (origin : ι) (net : ι → Node) :
    ∀ l, Decidable (Allowed T z topic p origin net l)
  | .enqueue _ _ => inferInstanceAs (Decidable (_ ∧ _))
  | .flush v order => inferInstanceAs
      (Decidable (∀ b ∈ ((net v).engine.flushLazyBatches order).2, b.batch.Fits z))
  | .eager u v sender _ | .lazyBatch u v sender _ =>
      inferInstanceAs (Decidable (T.Attributed v sender u))
  | .handleLocal _ _ => isTrue trivial
  | .expire _ _ _ | .repairReply _ _ _ _ | .repairFail _ _ _ => isTrue trivial

/-- No message is under way and no entry waits for a lazy peer. -/
structure Quiescent (T : Topology ι) (net : ι → Node) : Prop where
  localCh : ∀ v, (net v).engine.localCh = []
  eagerOut : ∀ u v, (net u).eagerOut (T.addr v) = []
  lazyOut : ∀ u v, (net u).lazyOut (T.addr v) = []
  buffers : ∀ v, ∀ peer ∈ (T.overlay v).lazyPeers,
    (GossipEngine.bufferOf (net v).engine.lazyBuffers peer.nodeID).entries = []

def Fitting (z : Zstd) (net : ι → Node) : Prop :=
  ∀ v a, ∀ batch ∈ (net v).lazyOut a, batch.Fits z

variable {z : Zstd}

private theorem Fitting.update (h : Fitting z net)
    (hn : ∀ a, ∀ batch ∈ n'.lazyOut a, batch.Fits z) :
    Fitting z (Function.update net v n') :=
  forall_update (P := fun _ n => ∀ a, ∀ batch ∈ Node.lazyOut n a, batch.Fits z)
    h hn

theorem Fitting.step (h : Fitting z net) {net' : ι → Node} {l : Label ι}
    (hallowed : Allowed T z topic p origin net l)
    (hstep : step T z net l = some net') : Fitting z net' := by
  cases l with
  | enqueue v entry =>
      obtain ⟨n', hn', rfl⟩ := Option.map_eq_some_iff.mp hstep
      obtain ⟨g, -, rfl⟩ := Option.map_eq_some_iff.mp hn'
      exact h.update (h v)
  | handleLocal v first =>
      obtain ⟨n', hn', rfl⟩ := Option.map_eq_some_iff.mp hstep
      obtain ⟨entry, rest, -, rfl⟩ := Node.handleLocal_eq_some hn'
      exact h.update (h v)
  | flush v order =>
      obtain ⟨n', hn', rfl⟩ := Option.map_eq_some_iff.mp hstep
      rw [Node.flush_eq_some hn']
      refine h.update fun a batch hbatch => ?_
      rcases List.mem_append.mp hbatch with hold | hnew
      · exact h v a batch hold
      · obtain ⟨b, hb, rfl⟩ := List.mem_map.mp hnew
        exact hallowed b (List.mem_filter.mp hb).1
  | eager u v sender first =>
      simp only [Lossless.step] at hstep
      split at hstep
      · cases hstep
      · next s rest _ =>
          cases hstep
          have hpop : Fitting z
              (Function.update net u ((net u).popEager (T.addr v))) :=
            h.update (h u)
          refine hpop.update fun a batch hbatch => hpop v a batch ?_
          unfold Node.onEager at hbatch
          split at hbatch <;> exact hbatch
  | lazyBatch u v sender first =>
      simp only [Lossless.step] at hstep
      split at hstep
      · cases hstep
      · cases hstep
        have hpop : Fitting z
            (Function.update net u ((net u).popLazy (T.addr v))) :=
          h.update fun a batch hbatch => h u a batch (Node.mem_popLazy hbatch)
        exact hpop.update (hpop v)
  | expire v other e =>
      obtain ⟨n', hn', rfl⟩ := Option.map_eq_some_iff.mp hstep
      obtain ⟨o, -, rfl⟩ := Option.map_eq_some_iff.mp hn'
      exact h.update (h v)
  | repairReply v other missing payload =>
      obtain ⟨n', hn', rfl⟩ := Option.map_eq_some_iff.mp hstep
      obtain ⟨o, -, rfl⟩ := Option.map_eq_some_iff.mp hn'
      exact h.update (h v)
  | repairFail v other missing =>
      obtain ⟨n', hn', rfl⟩ := Option.map_eq_some_iff.mp hstep
      obtain ⟨o, -, rfl⟩ := Option.map_eq_some_iff.mp hn'
      exact h.update (h v)

private theorem Sound.step (h : Sound T topic p origin (fun _ => []) net)
    (hfits : Fitting z net) {net' : ι → Node} {l : Label ι}
    (hallowed : Allowed T z topic p origin net l)
    (hstep : step T z net l = some net') :
    Sound T topic p origin (fun _ => []) net' := by
  cases l with
  | enqueue v entry =>
      obtain ⟨n', hn', rfl⟩ := Option.map_eq_some_iff.mp hstep
      exact h.enqueue hn' hallowed.1 hallowed.2
  | handleLocal v first =>
      obtain ⟨n', hn', rfl⟩ := Option.map_eq_some_iff.mp hstep
      obtain ⟨entry, rest, hlocal, rfl⟩ := Node.handleLocal_eq_some hn'
      exact h.runLocal hlocal first
  | flush v order =>
      obtain ⟨n', hn', rfl⟩ := Option.map_eq_some_iff.mp hstep
      exact h.flush hn'
  | eager u v sender first =>
      simp only [Lossless.step] at hstep
      split at hstep
      · cases hstep
      · next s rest hqueue =>
          cases hstep
          exact h.eager hqueue hallowed first
  | lazyBatch u v sender first =>
      simp only [Lossless.step] at hstep
      split at hstep
      · cases hstep
      · next batch rest hqueue =>
          cases hstep
          exact h.lazyBatch hqueue (hfits u (T.addr v) batch (by simp [hqueue]))
            hallowed first
  | expire v other e =>
      obtain ⟨n', hn', rfl⟩ := Option.map_eq_some_iff.mp hstep
      exact h.gapTimer hn' fun gap s hs => by simp [Slot.step, hs.timers]
  | repairReply v other missing payload =>
      obtain ⟨n', hn', rfl⟩ := Option.map_eq_some_iff.mp hstep
      exact h.gapTimer hn' fun gap s hs => by simp [Slot.step, hs.repairs]
  | repairFail v other missing =>
      obtain ⟨n', hn', rfl⟩ := Option.map_eq_some_iff.mp hstep
      exact h.gapTimer hn' fun gap s hs => by simp [Slot.step, hs.repairs]

omit [DecidableEq ι] in
private theorem Sound.start (T : Topology ι) (topic : UInt16) (p : UInt64 → Payload)
    (origin : ι) (gap : ι → Int) (primed : ι → List (UInt16 × UInt64)) :
    Sound T topic p origin (fun _ => []) (start T gap primed topic) := by
  have hunused := start_unused T topic gap primed
  have hstep := start_inStep T topic p gap primed
  have hmark : ∀ v, (Lossless.start T gap primed topic v).mark topic = 0 :=
    fun v => (hstep v).mark
  have hunder : ∀ v k, (Lossless.start T gap primed topic v).underWay T k = [] := by
    intro v k
    cases k with
    | eager u w => rfl
    | lazyBatch u w =>
        simp only [Node.underWay, (hunused v).lazyBuffers]
        rfl
  refine ⟨fun v => ⟨(hunused v).overlay, ((hunused v).slots topic).1,
    fun _ => ⟨0, hstep v⟩, fun _ => ⟨0, ?_, ?_⟩, fun _ => ?_⟩,
    fun v => ⟨fun e he => ?_, ?_, ?_, ?_⟩, fun k => ?_, ?_, ?_⟩
  · rw [hmark]
    rfl
  · rw [(hunused v).localCh]
    rfl
  · rw [(hunused v).localCh]
    rfl
  · cases he with
    | localCh hmem =>
        rw [(hunused v).localCh] at hmem
        cases hmem
    | eagerOut a s hmem hs => cases hmem
    | lazyOut a b hmem hb => cases hmem
    | buffer id hmem =>
        rw [(hunused v).lazyBuffers] at hmem
        cases hmem
  · exact fun a s hs => absurd hs List.not_mem_nil
  · exact fun a b hb => absurd hb List.not_mem_nil
  · exact fun a b hb => absurd hb List.not_mem_nil
  · rw [hmark]
    cases k.1 with
    | eager u w => exact le_refl _
    | lazyBatch u w =>
        simp only [Node.known, (hunused _).lazyBuffers]
        exact le_refl _
  · exact fun k e he => absurd he List.not_mem_nil
  · refine .initial (fun v => ?_) fun k => ?_
    · simp only [flooding, hmark]
      rfl
    · simp only [flooding, hunder]
      rfl

private theorem sound_run {gap : ι → Int} {primed : ι → List (UInt16 × UInt64)}
    {acts : List (Label ι)}
    (halong : Along (step T z) (Allowed T z topic p origin)
      (start T gap primed topic) acts)
    (hrun : exec (step T z) (start T gap primed topic) acts = some net) :
    Sound T topic p origin (fun _ => []) net ∧ Fitting z net := by
  refine exec_invariant_of_along
    (fun net => Sound T topic p origin (fun _ => []) net ∧ Fitting z net)
    ?_ ⟨.start T topic p origin gap primed, ?_⟩ halong hrun
  · rintro net l net' ⟨hsound, hfits⟩ hallowed hstep
    exact ⟨hsound.step hfits hallowed hstep, hfits.step hallowed hstep⟩
  · exact fun v a batch hbatch => absurd hbatch List.not_mem_nil

omit [DecidableEq ι] in
private theorem Sound.delivered (h : Sound T topic p origin (fun _ => []) net)
    (hquiescent : Quiescent T net) (hv : v ≠ origin)
    (hreach : Relation.ReflTransGen T.Adjacent origin v) :
    ((net v).engine.applier.slots topic).delivered =
      (wordsFrom 1 ((net origin).published topic)).map fun seq => (seq, p seq) := by
  have hempty : ∀ k : T.Edge,
      (flooding T topic (fun _ => []) net).flow k = [] := by
    rintro ⟨k, peer, hpeer, haddr⟩
    cases k with
    | eager u w => simp [flooding, Node.underWay, Channel.src, hquiescent.eagerOut]
    | lazyBatch u w =>
        have hid := (T.nodeID_eq_iff_addr_eq (T.mem_allPeers hpeer)).mpr haddr
        have hbuffer := hquiescent.buffers u peer hpeer
        rw [hid] at hbuffer
        simp only [Channel.dst] at hbuffer
        simp [flooding, Node.underWay, Channel.src, hquiescent.lazyOut, hbuffer]
  have hlevel : ((net v).mark topic).toNat = ((net origin).mark topic).toNat :=
    h.flood.quiescent hempty
      (Relation.ReflTransGen.mono (fun _ _ huw => T.adjacent_iff.mp huw) _ _ hreach)
  obtain ⟨j, hstep⟩ := (h.receiving v).view hv
  obtain ⟨k, hcount, hbacklog⟩ := (h.receiving origin).backlog rfl
  have hdone : k = 0 := by
    rw [hquiescent.localCh] at hbacklog
    simpa using (congrArg List.length hbacklog).symm
  have hj : j = (net origin).published topic := by
    have hmark : ((net v).mark topic).toNat = 0 + j := hstep.mark_toNat
    omega
  subst hj
  exact hstep.log

/--
Over lossless FIFO links no node ever starts a gap timer for the topic, and once
nothing is under way every node reachable from the origin has passed exactly the
numbers `1 .. n` to `deliver`, in order, where `n` is how many entries of the
topic the origin has enqueued.
-/
theorem complete_run (T : Topology ι) (z : Zstd) (topic : UInt16)
    (p : UInt64 → Payload) (origin : ι) (gap : ι → Int)
    (primed : ι → List (UInt16 × UInt64)) (acts : List (Label ι))
    (net : ι → Node)
    (halong : Along (step T z) (Allowed T z topic p origin)
      (start T gap primed topic) acts)
    (hrun : exec (step T z) (start T gap primed topic) acts = some net) :
    (∀ before after mid, acts = before ++ after →
      exec (step T z) (start T gap primed topic) before = some mid →
      ∀ v, ((mid v).engine.applier.slots topic).Quiet) ∧
    (Quiescent T net → ∀ v, v ≠ origin →
      Relation.ReflTransGen T.Adjacent origin v →
      ((net v).engine.applier.slots topic).delivered =
        (wordsFrom 1 ((net origin).published topic)).map
          fun seq => (seq, p seq)) := by
  refine ⟨?_, ?_⟩
  · rintro before after mid rfl hbefore v
    have hpart := ((along_append hbefore).mp halong).1
    exact ((sound_run hpart hbefore).1.receiving v).quiet
  · intro hquiescent v hv hreach
    exact (sound_run halong hrun).1.delivered hquiescent hv hreach

def ring : Topology (Fin 3) where
  nodeID v := ["a", "b", "c"].get v
  addr v := ["a:1", "b:1", "c:1"].get v
  overlay v :=
    -- three nodes in a ring: 0 to 1 eager, 1 to 2 lazy, 2 to 0 eager
    match v with
    | 0 => { Overlay.new "a" ⟨0, 0, 0, 0⟩ with eagerPeers := [⟨"b", "b:1", 1, true⟩] }
    | 1 => { Overlay.new "b" ⟨0, 0, 0, 0⟩ with lazyPeers := [⟨"c", "c:1", 1, false⟩] }
    | 2 => { Overlay.new "c" ⟨0, 0, 0, 0⟩ with eagerPeers := [⟨"a", "a:1", 1, true⟩] }
  nodeID_injective := by decide
  addr_injective := by decide
  nodeID_ne := by decide
  named := by decide

noncomputable def ringTrace : List (Label (Fin 3)) :=
  -- an entry goes around the ring; node 0 drops it when it comes back
  [.enqueue 0 ⟨1, 1, [7]⟩, .handleLocal 0 .any, .eager 0 1 "a:1" .any,
   .flush 1 [1], .lazyBatch 1 2 "b:1" .any, .eager 2 0 "c:1" .any]

theorem complete_run_ringTrace :
    ∃ net, exec (step ring .stored) (start ring (fun _ => 0) (fun _ => []) 1)
        ringTrace = some net ∧
      ((net 2).engine.applier.slots 1).delivered = [(1, [7])] := by
  have hsome : (exec (step ring .stored)
      (start ring (fun _ => 0) (fun _ => []) 1) ringTrace).isSome := by
    decide
  obtain ⟨net, hrun⟩ := Option.isSome_iff_exists.mp hsome
  have halong : Along (step ring .stored)
      (Allowed ring .stored 1 (fun _ => [7]) 0)
      (start ring (fun _ => 0) (fun _ => []) 1) ringTrace := by
    decide
  have hend : ∀ net, exec (step ring .stored)
      (start ring (fun _ => 0) (fun _ => []) 1) ringTrace = some net →
      (∀ v, (net v).engine.localCh = []) ∧
      (∀ u v, (net u).eagerOut (ring.addr v) = []) ∧
      (∀ u v, (net u).lazyOut (ring.addr v) = []) ∧
      (∀ v, ∀ peer ∈ (ring.overlay v).lazyPeers, (GossipEngine.bufferOf
        (net v).engine.lazyBuffers peer.nodeID).entries = []) ∧
      (net 0).published 1 = 1 := by
    decide
  obtain ⟨hlocal, heager, hlazy, hbuffers, hcount⟩ := hend net hrun
  have hreach : Relation.ReflTransGen ring.Adjacent 0 2 :=
    .tail (.single (by decide : ring.Adjacent 0 1)) (by decide : ring.Adjacent 1 2)
  have hdelivered := (complete_run ring .stored 1 (fun _ => [7]) 0 (fun _ => 0)
    (fun _ => []) ringTrace net halong hrun).2 ⟨hlocal, heager, hlazy, hbuffers⟩ 2
    (by decide) hreach
  rw [hcount] at hdelivered
  exact ⟨net, hrun, hdelivered⟩

end GossipMesh.Cluster.Lossless
