import PeerShare.Proofs.Node.Link

/-
  What becomes of the publications that the tracker accepts.

  A file may stop to wait before the tracker's verdict on it
  arrives, since another reply was taken for the verdict.
  The acceptance then finds nothing that waits, and the
  tracker lists a node that does not serve the file.

  Publications are counted to say when this happens: each
  one that the node waits to hear of has a file that waits,
  or one that another reply has dropped.

  Key definitions include:
    * `Link.Acquainted`
    * `Link.Handled`
    * `Link.Sound`

  Key theorems include:
    * `Link.Acquainted.dispatch`
    * `Link.Sound.serve`
    * `Link.Sound.deliver`
    * `Link.IsReachable.sound`
    * `Link.IsReachable.acceptances_kept_iff`
    * `Link.IsReachable.acceptances_kept`
    * `Link.exists_acceptance_lost`
-/

------------------------------------------------------------
-- Acquaintance
------------------------------------------------------------

namespace PeerShare

namespace Link

/-
  How a session stands to the messages that the node has on
  their way: either the first one introduces the node, or
  the node is registered and introduces itself no more.
-/
inductive Acquainted :
    List Wire.Message → Tracker.Standing → Prop where
  | unknown
      {first : Wire.Message}
      {rest : List Wire.Message}
      {catalog : Tracker.Catalog}
      (hFirst : first.isInit = true)
      (hRest : ∀ m ∈ rest, m.isInit = false) :
      Acquainted (first :: rest) { peer := none, catalog }
  | known
      {outbox : List Wire.Message}
      {own : Tracker.PeerId}
      {catalog : Tracker.Catalog}
      (hOwn :
        ∃ contact, catalog.contacts.get? own = some contact)
      (hOutbox : ∀ m ∈ outbox, m.isInit = false) :
      Acquainted outbox { peer := some own, catalog }

namespace Acquainted

variable {m : Wire.Message}
variable {outbox sent rest : List Wire.Message}
variable {standing : Tracker.Standing}

theorem append
    (h : Acquainted outbox standing)
    (hSent : ∀ m ∈ sent, m.isInit = false) :
    Acquainted (outbox ++ sent) standing := by
  cases h with
  | unknown hFirst hRest =>
      exact .unknown hFirst
        (List.forall_mem_append.mpr ⟨hRest, hSent⟩)
  | known hOwn hOutbox =>
      exact .known hOwn
        (List.forall_mem_append.mpr ⟨hOutbox, hSent⟩)

theorem perform
    (h : Acquainted outbox standing)
    {o : Tracker.Operation}
    (hOther :
      o.requester? = none ∨ o.requester? ≠ standing.peer) :
    Acquainted outbox
      (standing.withCatalog (standing.catalog.perform o).2) := by
  cases h with
  | unknown hFirst hRest => exact .unknown hFirst hRest
  | known hOwn hOutbox =>
      rename_i own catalog
      have hNot : o.requester? ≠ some own := by
        rcases hOther with hNone | hNot
        · rw [hNone]
          exact (Option.some_ne_none own).symm
        · exact hNot
      exact .known (Tracker.exists_contact_perform hNot hOwn)
        hOutbox

end Acquainted

/-
  What is known of a message once the tracker has handled
  it.  A publication is answered, and whatever answers the
  message fits it.
-/
structure Handled
    (m : Wire.Message)
    (rest : List Wire.Message)
    (handled : Tracker.Outcome × Tracker.Standing) : Prop where
  acquainted : Acquainted rest handled.2
  answers :
    ∀ reply,
      handled.1 = .ok (some reply) → Tracker.Answers m reply
  exists_reply :
    ∀ name,
      m.publishes name = true →
        ∃ reply, handled.1 = .ok (some reply)
  removes :
    ∀ name,
      m = .remove name →
        handled.2.catalog.files.contains name = false

variable {m : Wire.Message}
variable {rest : List Wire.Message}

/- The introduction registers the node. -/
theorem handled_introduction
    (hFirst : m.isInit = true)
    (hRest : ∀ m ∈ rest, m.isInit = false)
    (remote : String)
    (catalog : Tracker.Catalog) :
    Handled m rest
      (Tracker.dispatch remote m { peer := none, catalog }) := by
  cases m with
  | init identity port =>
      let name :=
        if identity.isEmpty then remote else identity
      have hSeat :
          ∃ contact,
            (catalog.register name port).2.contacts.get?
                catalog.nextPeer =
              some contact := by
        rw [Tracker.Catalog.contacts_register]
        exact ⟨_, Table.get?_insert_self _ _ _⟩
      exact {
        acquainted := .known hSeat hRest
        answers := by
          intro reply hReply
          cases hReply
        exists_reply := by
          intro name hPublishes
          cases hPublishes
        removes := by
          intro name hRemove
          cases hRemove }
  | _ => cases hFirst

/- A request of the registered node is served. -/
theorem handled_request
    {own : Tracker.PeerId}
    {catalog : Tracker.Catalog}
    (hFirst : m.isInit = false)
    (hRest : ∀ m ∈ rest, m.isInit = false)
    (hOwn : ∃ contact, catalog.contacts.get? own = some contact)
    (remote : String) :
    Handled m rest
      (Tracker.dispatch remote m
        { peer := some own, catalog }) := by
  have hDispatch :
      Tracker.dispatch remote m { peer := some own, catalog } =
        ((Tracker.serve own m catalog).1,
          { peer := some own
            catalog := (Tracker.serve own m catalog).2 }) := by
    cases m with
    | init identity port => cases hFirst
    | _ => rfl
  have hStays := (Tracker.Catalog.contacts_serve own m catalog).1
  rcases hOwn with ⟨contact, hContact⟩
  rcases Tracker.Catalog.exists_record_of_contacts hContact
    with ⟨record, hGet⟩
  rw [hDispatch]
  exact {
    acquainted := .known ⟨contact, hStays ▸ hContact⟩ hRest
    answers := fun _ => Tracker.answers_serve hGet
    exists_reply := by
      intro name hPublishes
      cases m with
      | publish file =>
          rcases Tracker.serve_publish hGet file with
            ⟨reply, hReply, -⟩
          exact ⟨reply, hReply⟩
      | _ => cases hPublishes
    removes := by
      rintro name rfl
      rw [Tracker.serve_eq_run]
      exact catalog.contains_remove name }

theorem Acquainted.dispatch
    {standing : Tracker.Standing}
    (h : Acquainted (m :: rest) standing)
    (remote : String) :
    Handled m rest (Tracker.dispatch remote m standing) := by
  cases h with
  | unknown hFirst hRest =>
      exact handled_introduction hFirst hRest remote _
  | known hOwn hOutbox =>
      rcases List.forall_mem_cons.mp hOutbox with
        ⟨hFirst, hRest⟩
      exact handled_request hFirst hRest hOwn remote

/- A publication that is handled has one reply. -/
theorem Handled.countP_replies
    {outcome : Tracker.Outcome}
    {standing : Tracker.Standing}
    (h : Handled m rest (outcome, standing))
    (name : String) :
    ((Tracker.sentReply? outcome).toList.map
        fun reply => (m, reply)).countP
        (fun pair => pair.1.publishes name) =
      if m.publishes name then 1 else 0 := by
  cases hPublishes : m.publishes name with
  | true =>
      rcases h.exists_reply name hPublishes with ⟨reply, rfl⟩
      simp [Tracker.sentReply?, hPublishes]
  | false =>
      cases Tracker.sentReply? outcome <;>
        simp [hPublishes]

end Link

end PeerShare

------------------------------------------------------------
-- Sound Links
------------------------------------------------------------

namespace PeerShare

namespace Link

/- A node honors a file on as long as nothing is lost. -/
theorem Honors.of_serves
    {link link' : Link}
    {name : String}
    (h : link.Honors name)
    (hOpen : link.node.isConnected = true)
    (hServes : link.node.ServesFor link'.node)
    (hOutbox : link.node.outbox ⊆ link'.node.outbox)
    (hReplies :
      ∀ pair ∈ link.replies,
        pair.2 = .success name .publish →
          pair ∈ link'.replies) :
    link'.Honors name := by
  rcases h with hServed | hRemoved | ⟨pair, hPair, hSuccess⟩
  · rcases hServes hOpen name hServed with hServed | hRemoved
    · exact Or.inl hServed
    · exact Or.inr (Or.inl hRemoved)
  · exact Or.inr (Or.inl (hOutbox hRemoved))
  · exact Or.inr
      (Or.inr ⟨pair, hReplies pair hPair hSuccess, hSuccess⟩)

/-
  What always holds of a link.  The publications of a name
  that the node waits to hear of, those that were accepted
  or refused in vain, are as many as there are files that
  wait or that were dropped.
-/
structure Sound
    (link : Link)
    (deliveries : List Delivery) : Prop where
  isBacked : ∃ described, link.node.IsBacked described
  isApart : link.node.IsApart
  isConnected : link.node.isConnected = true
  acquainted : Acquainted link.node.outbox link.standing
  answers :
    ∀ pair ∈ link.replies, Tracker.Answers pair.1 pair.2
  honors :
    ∀ name ∈ link.listed,
      link.Honors name ∨ ∃ d ∈ deliveries, d.isLost name = true
  after_eq :
    ∀ d ∈ deliveries,
      ∃ hosts now,
        d.after = d.before.handleMessage d.reply hosts now
  waiting_le :
    ∀ name, link.node.waiting name ≤ link.unanswered name
  balance :
    ∀ name,
      deliveries.countP (·.isLost name) +
            deliveries.countP (·.isVainRefusal name) +
          link.unanswered name =
        deliveries.countP (·.isDrop name) +
          link.node.waiting name

namespace Sound

variable {link : Link}
variable {deliveries : List Delivery}

/- What the node says is unanswered at first. -/
theorem act
    (h : link.Sound deliveries)
    {e : Node.Event}
    (hLocal : e.isLocal = true) :
    Sound { link with node := link.node.after e } deliveries := by
  rcases h.isBacked with ⟨described, hBacked⟩
  rcases Node.exists_sends_of_tells
      (Node.tells_after hBacked h.isApart hLocal) h.isApart with
    ⟨hApart, sent, hSends⟩
  have hUnanswered :
      ∀ name,
        unanswered { link with node := link.node.after e } name +
            link.node.waiting name =
          link.unanswered name +
            (link.node.after e).waiting name := by
    intro name
    have hSaid := hSends.countP_outbox name
    unfold unanswered
    dsimp only
    omega
  exact {
    isBacked := ⟨_, hBacked.after e⟩
    isApart := hApart
    isConnected := hSends.isConnected_eq.trans h.isConnected
    acquainted := by
      dsimp only
      rw [hSends.outbox_eq]
      exact h.acquainted.append hSends.isInit_eq
    answers := h.answers
    honors := by
      intro name hListed
      refine (h.honors name hListed).imp_left fun hHonors => ?_
      apply hHonors.of_serves h.isConnected hSends.serves
      · dsimp only
        rw [hSends.outbox_eq]
        exact List.subset_append_left _ _
      · exact fun pair hPair _ => hPair
    after_eq := h.after_eq
    waiting_le := by
      intro name
      have hOld := h.waiting_le name
      have hNew := hUnanswered name
      dsimp only
      omega
    balance := by
      intro name
      have hOld := h.balance name
      have hNew := hUnanswered name
      dsimp only
      omega }

/- The disk may change elsewhere. -/
theorem outside
    (h : link.Sound deliveries)
    {disk : Disk}
    (hKept :
      ∀ name,
        disk.lookUp (Path.join link.node.directory name) =
          link.node.disk.lookUp
            (Path.join link.node.directory name)) :
    Sound { link with node := { link.node with disk } }
      deliveries := by
  rcases h.isBacked with ⟨described, hBacked⟩
  exact { h with
    isBacked := ⟨_, Downloads.Backed.of_lookUp_eq hBacked hKept⟩ }

/- What others do leaves the node registered. -/
theorem perform
    (h : link.Sound deliveries)
    {o : Tracker.Operation}
    (hOther :
      o.requester? = none ∨
        o.requester? ≠ link.standing.peer) :
    (link.perform o).Sound deliveries :=
  { h with
    acquainted := h.acquainted.perform hOther
    honors := fun name hListed =>
      h.honors name (List.mem_of_mem_filter hListed) }

/-
  The file of a publication that is handled stays honored
  while it is listed.
-/
theorem honors_serve
    (h : link.Sound deliveries)
    {m : Wire.Message}
    {rest : List Wire.Message}
    {outcome : Tracker.Outcome}
    {standing : Tracker.Standing}
    (hOutbox : link.node.outbox = m :: rest)
    (hHandled : Handled m rest (outcome, standing))
    {link' : Link}
    (hNode : link'.node = { link.node with outbox := rest })
    (hReplies :
      link'.replies =
        link.replies ++
          (Tracker.sentReply? outcome).toList.map
            fun reply => (m, reply))
    {name : String}
    (hMem :
      name ∈
        (Tracker.sentReply? outcome).toList.filterMap
            (·.accepted?) ++
          link.listed.filter
            standing.catalog.files.contains) :
    link'.Honors name ∨
      ∃ d ∈ deliveries, d.isLost name = true := by
  unfold Honors
  rw [hNode, hReplies]
  rcases List.mem_append.mp hMem with hNew | hOld
  · rcases List.mem_filterMap.mp hNew with
      ⟨reply, hReply, hAccepted⟩
    have hSuccess :=
      Wire.Message.eq_success_of_accepted? hAccepted
    refine Or.inl (Or.inr (Or.inr ⟨(m, reply), ?_, hSuccess⟩))
    exact List.mem_append_right _ (List.mem_map_of_mem hReply)
  · rcases List.mem_filter.mp hOld with ⟨hListed, hKnown⟩
    refine (h.honors name hListed).imp_left ?_
    rintro (hServed | hRemoved | ⟨pair, hPair, hSuccess⟩)
    · exact Or.inl hServed
    · rw [hOutbox] at hRemoved
      rcases List.mem_cons.mp hRemoved with rfl | hRest
      · -- the removal that is handled takes the file away
        rw [hHandled.removes name rfl] at hKnown
        cases hKnown
      · exact Or.inr (Or.inl hRest)
    · exact Or.inr
        (Or.inr
          ⟨pair, List.mem_append_left _ hPair, hSuccess⟩)

/- A publication that is handled has its reply on the way. -/
theorem serve
    (h : link.Sound deliveries)
    (remote : String) :
    (link.serve remote).Sound deliveries := by
  unfold Link.serve
  split
  · exact h
  · rename_i m rest hOutbox
    have hAcquainted := h.acquainted
    rw [hOutbox] at hAcquainted
    have hHandled := hAcquainted.dispatch remote
    generalize
      Tracker.dispatch remote m link.standing = handled
      at hHandled ⊢
    rcases handled with ⟨outcome, standing⟩
    dsimp only
    have hUnanswered :
        ∀ name,
          rest.countP (·.publishes name) +
              (link.replies ++
                  (Tracker.sentReply? outcome).toList.map
                    fun reply => (m, reply)).countP
                (fun pair => pair.1.publishes name) =
            link.unanswered name := by
      intro name
      unfold unanswered
      rw [hOutbox, List.countP_append,
        hHandled.countP_replies, List.countP_cons]
      omega
    exact {
      isBacked := h.isBacked
      isApart := h.isApart
      isConnected := h.isConnected
      acquainted := hHandled.acquainted
      answers := by
        intro pair hMem
        rcases List.mem_append.mp hMem with hOld | hNew
        · exact h.answers pair hOld
        · rcases List.mem_map.mp hNew with ⟨reply, hReply, rfl⟩
          apply hHandled.answers
          rw [← Tracker.sentReply?_eq_some_iff]
          exact Option.mem_toList.mp hReply
      honors := fun _ =>
        h.honors_serve hOutbox hHandled rfl rfl
      after_eq := h.after_eq
      waiting_le := fun name =>
        (h.waiting_le name).trans_eq (hUnanswered name).symm
      balance := fun name =>
        (congrArg _ (hUnanswered name)).trans (h.balance name) }

/- A file whose acceptance is not lost stays honored. -/
theorem honors_deliver
    (h : link.Sound deliveries)
    {request reply : Wire.Message}
    {rest : List (Wire.Message × Wire.Message)}
    (hReplies : link.replies = (request, reply) :: rest)
    {hosts : Hosts}
    {now : Moment}
    {name : String}
    (hKeeps :
      Delivery.Keeps name
        { request
          reply
          before := link.node
          after := link.node.handleMessage reply hosts now })
    (hHonors : link.Honors name) :
    Honors
      { link with
        node := link.node.handleMessage reply hosts now
        replies := rest }
      name := by
  by_cases hReply : reply = .success name .publish
  · rcases hKeeps hReply with ⟨file, -, hServed⟩
    exact Or.inl (Table.contains_iff.mpr ⟨file, hServed⟩)
  · apply hHonors.of_serves h.isConnected
      (link.node.servesFor_handleMessage reply hosts now)
    · rcases link.node.exists_sent_handleMessage reply hosts now
        with ⟨-, sent, hOutbox, -⟩
      dsimp only
      rw [hOutbox]
      exact List.subset_append_left _ _
    · intro pair hPair hSuccess
      rw [hReplies] at hPair
      rcases List.mem_cons.mp hPair with rfl | hRest
      · exact absurd hSuccess hReply
      · exact hRest

/- A reply that arrives is counted. -/
theorem deliver
    (h : link.Sound deliveries)
    {request reply : Wire.Message}
    {rest : List (Wire.Message × Wire.Message)}
    (hReplies : link.replies = (request, reply) :: rest)
    (hosts : Hosts)
    (now : Moment) :
    Sound
      { link with
        node := link.node.handleMessage reply hosts now
        replies := rest }
      ({ request
         reply
         before := link.node
         after := link.node.handleMessage reply hosts now } ::
        deliveries) := by
  let d : Delivery :=
    { request
      reply
      before := link.node
      after := link.node.handleMessage reply hosts now }
  have hAfter :
      d.after = d.before.handleMessage d.reply hosts now := rfl
  have hAnswers := h.answers
  rw [hReplies] at hAnswers
  rcases List.forall_mem_cons.mp hAnswers with
    ⟨hFits, hLater⟩
  have hBalance := d.balance hFits hAfter
  rcases h.isBacked with ⟨described, hBacked⟩
  rcases link.node.exists_sent_handleMessage reply hosts now with
    ⟨hConnected, sent, hOutbox, hSent⟩
  have hUnanswered :
      ∀ name,
        unanswered
              { link with
                node := link.node.handleMessage reply hosts now
                replies := rest }
              name +
            (if request.publishes name then 1 else 0) =
          link.unanswered name := by
    intro name
    have hNone :=
      Wire.Message.countP_publishes_of_isQuiet hSent name
    unfold unanswered
    dsimp only
    rw [hOutbox, hReplies, List.countP_append, hNone,
      List.countP_cons]
    dsimp only
    omega
  exact {
    isBacked := hBacked.exists_handleMessage reply hosts now
    isApart := h.isApart.handleMessage reply hosts now
    isConnected := hConnected.trans h.isConnected
    acquainted := by
      dsimp only
      rw [hOutbox]
      exact h.acquainted.append fun m hm =>
        Wire.Message.isInit_eq_of_isQuiet (hSent m hm)
    answers := hLater
    honors := by
      intro name hListed
      rcases h.honors name hListed with
        hHonors | ⟨d', hMem, hLost⟩
      · by_cases hLost : d.isLost name = true
        · exact Or.inr ⟨d, List.mem_cons_self, hLost⟩
        · have hKeeps := (d.keeps_iff hAfter name).mpr hLost
          exact Or.inl
            (h.honors_deliver hReplies hKeeps hHonors)
      · exact Or.inr ⟨d', List.mem_cons_of_mem _ hMem, hLost⟩
    after_eq :=
      List.forall_mem_cons.mpr
        ⟨⟨hosts, now, hAfter⟩, h.after_eq⟩
    waiting_le := by
      intro name
      have hOld := h.waiting_le name
      have hHeard := hUnanswered name
      dsimp only
      rw [Node.waiting_handleMessage]
      split
      · exact Nat.zero_le _
      · rename_i hOther
        have hNot : ¬ request.publishes name = true :=
          fun hOwn => hOther (hFits.verdictOn?_eq name hOwn)
        rw [if_neg hNot] at hHeard
        omega
    balance := by
      intro name
      have hOld := h.balance name
      have hHeard := hUnanswered name
      have hCount := hBalance name
      rw [List.countP_cons, List.countP_cons, List.countP_cons]
      dsimp only [d] at hCount ⊢
      omega }

end Sound

variable {remote : String}
variable {link : Link}
variable {deliveries : List Delivery}

theorem IsReachable.sound
    (h : IsReachable remote link deliveries) :
    link.Sound deliveries := by
  induction h with
  | start identity localAddress port directory disk catalog =>
      exact {
        isBacked := ⟨[], Downloads.Backed.empty _ _ _⟩
        isApart := fun _ => Or.inl rfl
        isConnected := rfl
        acquainted := .unknown rfl (by simp)
        answers := by simp [Link.start]
        honors := by simp [Link.start]
        after_eq := by simp
        waiting_le := fun _ => Nat.zero_le _
        balance := fun _ => rfl }
  | @step link deliveries e before can ih =>
      cases e with
      | act e => exact ih.act can
      | outside disk => exact ih.outside can
      | serve => exact ih.serve remote
      | perform o => exact ih.perform can
      | deliver hosts now =>
          cases hReplies : link.replies with
          | nil =>
              simp only [after, delivery?, hReplies]
              exact ih
          | cons pair rest =>
              simp only [after, delivery?, hReplies]
              exact ih.deliver hReplies hosts now

end Link

end PeerShare

------------------------------------------------------------
-- Acceptances
------------------------------------------------------------

namespace PeerShare

namespace Link

variable {remote : String}
variable {link : Link}
variable {deliveries : List Delivery}

theorem Sound.keeps_iff
    (h : link.Sound deliveries)
    (name : String) :
    (∀ d ∈ deliveries, d.Keeps name) ↔
      deliveries.countP (·.isLost name) = 0 := by
  rw [List.countP_eq_zero]
  refine forall_congr' fun d => forall_congr' fun hMem => ?_
  rcases h.after_eq d hMem with ⟨hosts, now, hAfter⟩
  exact Delivery.keeps_iff hAfter name

/-
  Each acceptance of a publication that has arrived found
  the file waiting, and has it served, just if the files
  that stopped to wait for a reply to something else make up
  for the publications that were refused in vain and those
  unanswered ones for which no file waits.

  The node then honors the file if the tracker lists it with
  the file on account of a publication.
-/
theorem IsReachable.acceptances_kept_iff
    (h : IsReachable remote link deliveries)
    (name : String) :
    ((∀ d ∈ deliveries, d.Keeps name) ↔
        deliveries.countP (·.isDrop name) +
            link.node.waiting name =
          deliveries.countP (·.isVainRefusal name) +
            link.unanswered name) ∧
      ((∀ d ∈ deliveries, d.Keeps name) →
        name ∈ link.listed → link.Honors name) := by
  constructor
  · rw [h.sound.keeps_iff]
    have hBalance := h.sound.balance name
    omega
  · intro hKeeps hListed
    rw [h.sound.keeps_iff, List.countP_eq_zero] at hKeeps
    refine (h.sound.honors name hListed).resolve_right ?_
    rintro ⟨d, hMem, hLost⟩
    exact hKeeps d hMem hLost

/-
  No acceptance is lost as long as no file stops to wait for
  a reply to something else than its publication.
-/
theorem IsReachable.acceptances_kept
    (h : IsReachable remote link deliveries)
    {name : String}
    (hNone : ∀ d ∈ deliveries, d.isDrop name = false) :
    ∀ d ∈ deliveries, d.Keeps name := by
  rw [h.sound.keeps_iff]
  have hBalance := h.sound.balance name
  have hWaiting := h.sound.waiting_le name
  have hDrops : deliveries.countP (·.isDrop name) = 0 :=
    List.countP_eq_zero.mpr fun d hMem =>
      Bool.eq_false_iff.mp (hNone d hMem)
  omega

/- A node with a file, while the tracker knows one peer. -/
def fresh : Link :=
  Link.start
    (Node.start (some "n") .loopback 1 "d"
      ((Disk.empty.store "a" [1]).toOption.getD Disk.empty))
    (Tracker.Catalog.empty.register "m" 2).2

theorem isReachable_fresh :
    IsReachable "r" fresh [] :=
  .start _ _ _ _ _ _

/- The node publishes its file, and the tracker accepts. -/
def publication : List Event :=
  [.act (.publish "a"), .serve, .serve,
    .deliver Node.noHosts 0]

/-
  The other peer removes the file.  The node removes it too
  and publishes it anew, before the tracker's reply to the
  removal arrives.
-/
def republication : List Event :=
  publication ++
    [.perform (.remove 0 "a"), .act (.remove "a"),
      .act (.publish "a"), .serve, .serve,
      .deliver Node.noHosts 0, .deliver Node.noHosts 0]

/- A file that is published once is kept and honored. -/
theorem acceptances_kept_iff_of_publication :
    (∀ d ∈ (fresh.run "r" [] publication).2, d.Keeps "a") ∧
      (fresh.run "r" [] publication).2.map (·.reply) =
        [.success "a" .publish] ∧
      (fresh.run "r" [] publication).1.listed = ["a"] ∧
      (fresh.run "r" [] publication).1.Honors "a" := by
  have hReachable := isReachable_fresh.run publication
    ⟨rfl, trivial, trivial, trivial, trivial⟩
  rcases hReachable.acceptances_kept_iff "a" with
    ⟨hKeepsIff, hHonors⟩
  have hKeeps :
      ∀ d ∈ (fresh.run "r" [] publication).2, d.Keeps "a" := by
    rw [hKeepsIff]
    decide +kernel
  have hListed :
      (fresh.run "r" [] publication).1.listed = ["a"] := by
    decide +kernel
  refine ⟨hKeeps, by decide +kernel, hListed, ?_⟩
  apply hHonors hKeeps
  rw [hListed]
  exact List.mem_cons_self

/-
  The reply to the removal says that the file is not found,
  and the file waits no longer.  The acceptance comes to
  nothing, and the tracker lists the node with every chunk
  of a file that it does not offer.
-/
theorem exists_acceptance_lost :
    ∃ link deliveries,
      IsReachable "r" link deliveries ∧
        (∃ d ∈ deliveries,
          d.reply = .success "a" .publish ∧
            d.before.offers.pending.get? "a" = none ∧
            d.after.offers.published.get? "a" = none) ∧
        (link.node.outbox = [] ∧ link.replies = [] ∧
          link.node.tracks "a" = false) ∧
        link.listed = ["a"] ∧
        ∃ answer,
          link.standing.catalog.query "a" = some answer ∧
            answer.1.chunkCount = 1 ∧
            answer.2 =
              [{ identity := "n"
                 port := 1
                 bitfield := [0x80] }] := by
  have hReachable := isReachable_fresh.run republication
    ⟨rfl, trivial, trivial, trivial,
      Or.inr (by decide +kernel), rfl, rfl, trivial, trivial,
      trivial, trivial, trivial⟩
  have hLast :
      ((fresh.run "r" [] republication).2.head?.map fun d =>
          (d.reply, d.before.offers.pending.get? "a",
            d.after.offers.published.get? "a")) =
        some (.success "a" .publish, none, none) := by
    decide +kernel
  have hListed :
      ((fresh.run "r" []
            republication).1.standing.catalog.query "a").map
          (fun answer => (answer.1.chunkCount, answer.2)) =
        some
          (1,
            [{ identity := "n"
               port := 1
               bitfield := [0x80] }]) := by
    decide +kernel
  rcases Option.map_eq_some_iff.mp hLast with ⟨d, hHead, hLost⟩
  rcases Option.map_eq_some_iff.mp hListed with
    ⟨answer, hQuery, hEntries⟩
  refine ⟨_, _, hReachable,
    ⟨d, List.mem_of_mem_head? hHead, ?_⟩,
    by decide +kernel, by decide +kernel, answer, hQuery,
    congrArg (·.1) hEntries, congrArg (·.2) hEntries⟩
  exact ⟨congrArg (·.1) hLost, congrArg (·.2.1) hLost,
    congrArg (·.2.2) hLost⟩

end Link

end PeerShare
