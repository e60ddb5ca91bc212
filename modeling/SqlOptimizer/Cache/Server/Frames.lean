import SqlOptimizer.Cache.Command.Replies
import SqlOptimizer.Cache.Server.Connection

/-! On every connection, the frames that come back answer the commands in their order. -/

namespace SqlOptimizer.Cache

/-- Commands read one after the other off a stream, and the bytes left. -/
inductive Reads (sent : Bytes) : List (List Bytes) → Bytes → Prop
  | start : Reads sent [] sent
  | read {cmds : List (List Bytes)} {args : List Bytes} {input rest : Bytes}
      (h : Reads sent cmds input) (hread : parseCommand input = .ok (args, rest)) :
      Reads sent (cmds ++ [args]) rest

theorem receivable_of_parseCommand {r rest : Bytes} {args : List Bytes}
    (h : parseCommand r = .ok (args, rest)) : Receivable args := by
  obtain ⟨hlength, hall⟩ := length_of_parseCommand h
  rw [maxArrayLength_eq] at hlength
  refine ⟨by omega, fun a ha => ?_⟩
  have ha := hall a ha
  rw [maxBulkLength_eq] at ha
  rw [maxFieldLength_eq]
  omega

theorem writeItems_append (vs ws : List RespValue) :
    writeItems (vs ++ ws) = writeItems vs ++ writeItems ws := by
  induction vs with
  | nil => rfl
  | cons v vs ih => rw [List.cons_append, writeItems, writeItems, ih, List.append_assoc]

/-- A stream of frames gives back the values exactly when every one of them keeps the limits. -/
theorem parseItems_writeItems_iff {vs : List RespValue} :
    parseItems parseRESP vs.length (writeItems vs) = .ok (vs, []) ↔ ∀ v ∈ vs, Transmissible v := by
  constructor
  · exact fun h => (forall_of_parseItems transmissible_of_parseValue h).2
  · intro h
    have hitems : parseItems parseRESP vs.length (writeItems vs ++ []) = .ok (vs, []) :=
      parseItems_write (fun v hv rest => parseRESP_write (h v hv) rest) []
    rwa [List.append_nil] at hitems

section

variable {n : Nat} [NeZero n] [Rounding] {srv : Server n}

/-! ### One event -/

omit [NeZero n] [Rounding] in
theorem setConnection_apply (client client' : Nat) (conn : Connection) :
    (srv.setConnection client' conn).connections client =
      if client = client' then some conn else srv.connections client :=
  Function.update_apply _ _ _ _

/-- What an event can do to a connection. -/
theorem step_connection {e : Event n} {client : Nat} {conn' : Connection}
    (h : (srv.step e).connections client = some conn') :
    srv.connections client = some conn' ∨ (∃ sent, conn' = ⟨sent, sent, [], [], false⟩) ∨
      ∃ conn, srv.connections client = some conn ∧
        (conn' = { conn with closed := true } ∨
          ∃ ctx args input, e = .serve client ctx ∧ parseCommand conn.input = .ok (args, input) ∧
            conn' = { conn with
              input := input
              output := conn.output ++ writeRESP (dispatch args ctx srv.store).1
              answers := conn.answers ++ [⟨args, ctx, (dispatch args ctx srv.store).1⟩] }) := by
  cases e with
  | accept client' sent =>
    change (srv.accept client' sent).connections client = some conn' at h
    unfold Server.accept at h
    split at h
    · exact .inl h
    · rw [setConnection_apply] at h
      split at h
      · exact .inr (.inl ⟨sent, (Option.some.inj h).symm⟩)
      · exact .inl h
  | serve client' ctx =>
    change (srv.handleConnection client' ctx).connections client = some conn' at h
    unfold Server.handleConnection at h
    split at h
    · exact .inl h
    case h_2 conn hconn =>
      split at h
      · exact .inl h
      split at h
      case h_1 =>
        rw [Server.close, setConnection_apply] at h
        split at h
        case isTrue heq =>
          subst heq
          exact .inr (.inr ⟨conn, hconn, .inl (Option.some.inj h).symm⟩)
        case isFalse => exact .inl h
      case h_2 args input hread =>
        rw [Server.answer, setConnection_apply] at h
        split at h
        case isTrue heq =>
          subst heq
          exact .inr (.inr ⟨conn, hconn, .inr
            ⟨ctx, args, input, rfl, hread, (Option.some.inj h).symm⟩⟩)
        case isFalse => exact .inl h
  | sweep i now => exact .inl h

/-- What the environment of an event promises. -/
def Event.Formatted : Event n → Prop
  | .serve _ ctx => ctx.Formatted
  | _ => True

theorem dispatch_deliverable {args : List Bytes} {ctx : Context} {s : ShardedStore n}
    (hargs : Receivable args) (hs : s.Deliverable) : (dispatch args ctx s).2.Deliverable := by
  have hlimit : 20 ≤ maxFieldLength := by
    rw [maxFieldLength_eq]
    omega
  rcases dispatch_runs ctx s hlimit hargs.2 with hruns | hruns
  · exact hruns.deliverable hs
  · exact hruns.deliverable (s := countCommand s) hs

theorem step_deliverable (e : Event n) (hs : srv.store.Deliverable) :
    (srv.step e).store.Deliverable := by
  cases e with
  | accept client sent =>
    show (srv.accept client sent).store.Deliverable
    unfold Server.accept
    split
    · exact hs
    · exact hs
  | serve client ctx =>
    show (srv.handleConnection client ctx).store.Deliverable
    unfold Server.handleConnection
    split
    · exact hs
    split
    · exact hs
    split
    · exact hs
    case h_2 args input hread =>
      exact dispatch_deliverable (receivable_of_parseCommand hread) hs
  | sweep i now =>
    have hruns : Runs maxFieldLength srv.store (srv.store.step (.sweepExpired i now)) :=
      .quiet (.sweepExpired i now) fun _ _ => id
    exact hruns.deliverable hs

/-! ### Every run -/

variable {store : ShardedStore n} {events : List (Event n)}

/-- What holds of a connection after `events`: its commands were read in order off the stream, its
output is the frames of their replies in the same order, and each reply is what `Dispatch` returned
when the command was served. -/
structure Connection.InOrder (store : ShardedStore n) (events : List (Event n)) (client : Nat)
    (conn : Connection) : Prop where
  reads : Reads conn.sent (conn.answers.map (·.args)) conn.input
  output : conn.output = writeItems (conn.answers.map (·.reply))
  replies : ∀ a ∈ conn.answers, ∃ before after, events = before ++ .serve client a.ctx :: after ∧
    a.reply = (dispatch a.args a.ctx ((Server.start store).run before).store).1

omit [Rounding] in
theorem Reads.receivable {sent input : Bytes} {cmds : List (List Bytes)}
    (h : Reads sent cmds input) : ∀ args ∈ cmds, Receivable args := by
  induction h with
  | start => exact fun _ h => nomatch h
  | read _ hread ih =>
    intro args hargs
    rcases List.mem_append.mp hargs with hargs | hargs
    · exact ih args hargs
    · rw [List.mem_singleton.mp hargs]
      exact receivable_of_parseCommand hread

theorem run_append (e : Event n) : srv.run (events ++ [e]) = (srv.run events).step e :=
  List.foldl_concat ..

theorem run_deliverable (events : List (Event n)) (hs : srv.store.Deliverable) :
    (srv.run events).store.Deliverable := by
  induction events using List.reverseRecOn with
  | nil => exact hs
  | append_singleton events e ih =>
    rw [run_append]
    exact step_deliverable e ih

theorem Connection.InOrder.later {client : Nat} {conn : Connection} (e : Event n)
    (h : conn.InOrder store events client) : conn.InOrder store (events ++ [e]) client := by
  refine ⟨h.reads, h.output, fun a ha => ?_⟩
  obtain ⟨before, after, hsplit, hreply⟩ := h.replies a ha
  refine ⟨before, after ++ [e], ?_, hreply⟩
  rw [hsplit, List.append_assoc, List.cons_append]

theorem run_inOrder (events : List (Event n)) {client : Nat} {conn : Connection}
    (h : ((Server.start store).run events).connections client = some conn) :
    conn.InOrder store events client := by
  induction events using List.reverseRecOn generalizing conn with
  | nil => cases h
  | append_singleton events e ih =>
    rw [run_append] at h
    rcases step_connection h with h | ⟨sent, rfl⟩ | ⟨conn, hconn, rfl | ⟨ctx, args, input, rfl, hread, rfl⟩⟩
    · exact (ih h).later e
    · exact ⟨.start, rfl, fun _ h => nomatch h⟩
    · have hold := (ih hconn).later e
      exact ⟨hold.reads, hold.output, hold.replies⟩
    · have hold := ih hconn
      refine ⟨?_, ?_, fun a ha => ?_⟩
      · dsimp only
        rw [List.map_append, List.map_singleton]
        exact .read hold.reads hread
      · dsimp only
        rw [List.map_append, writeItems_append, hold.output]
        simp [writeItems]
      · rcases List.mem_append.mp ha with ha | ha
        · exact (hold.later _).replies a ha
        · cases List.mem_singleton.mp ha
          exact ⟨events, [], rfl, rfl⟩

/-- The bytes written for a reply are one frame that reads back as it, with no bytes left, unless
the reply repeats a text of more than one line. On every connection of every run the frames then
answer the commands in order. -/
theorem one_reply_frame :
    (∀ (args : List Bytes) (ctx : Context) (s : ShardedStore n), Receivable args → s.Deliverable →
      ctx.Formatted →
      (parseRESP (writeRESP (dispatch args ctx s).1) = .ok ((dispatch args ctx s).1, []) ↔
        ¬ BreaksLine args ctx)) ∧
    ∀ (store : ShardedStore n) (events : List (Event n)) (client : Nat) (conn : Connection),
      store.Deliverable → (∀ e ∈ events, e.Formatted) →
      ((Server.start store).run events).connections client = some conn →
      conn.InOrder store events client ∧
        (parseItems parseRESP conn.answers.length conn.output =
            .ok (conn.answers.map (·.reply), []) ↔
          ∀ a ∈ conn.answers, ¬ BreaksLine a.args a.ctx) := by
  constructor
  · intro args ctx s hargs hs hctx
    rw [← dispatch_transmissible_iff hargs hs hctx, ← @parseRESP_write_iff _ [], List.append_nil]
  · intro store events client conn hs hevents hconn
    have horder := run_inOrder events hconn
    refine ⟨horder, ?_⟩
    have hframes : parseItems parseRESP conn.answers.length conn.output =
        .ok (conn.answers.map (·.reply), []) ↔
          ∀ v ∈ conn.answers.map (·.reply), Transmissible v := by
      rw [← parseItems_writeItems_iff, List.length_map, horder.output]
    rw [hframes, List.forall_mem_map]
    refine forall₂_congr fun a ha => ?_
    obtain ⟨before, after, hsplit, hreply⟩ := horder.replies a ha
    have hargs := horder.reads.receivable a.args (List.mem_map_of_mem ha)
    have hctx : (Event.serve client a.ctx : Event n).Formatted := hevents _ (by simp [hsplit])
    rw [hreply]
    exact dispatch_transmissible_iff hargs (run_deliverable before hs) hctx

end

/-! ### A command that is not registered -/

def frozenContext : Context := ⟨fun _ => 0, [], none, ascii "0", fun _ _ => ascii "0.0000"⟩

theorem frozenContext_formatted : frozenContext.Formatted :=
  ⟨by decide, fun _ _ => by show 6 ≤ 400; omega⟩

def pingCommand : List Bytes := [ascii "ping"]

def unknownCommand : List Bytes := [ascii "nope", [10]]

theorem not_breaksLine_pingCommand (ctx : Context) : ¬ BreaksLine pingCommand ctx := id

theorem not_breaksLine_unknownCommand (ctx : Context) : ¬ BreaksLine unknownCommand ctx := by
  show 10 ∉ ascii "nope"
  decide

section

attribute [local instance] Rounding.exact

/-- A client sends two commands, and both are served. -/
def twoCommands : List (Event (shardCount 1)) :=
  [.accept 0 (writeItems [respCommand pingCommand, respCommand unknownCommand]),
    .serve 0 frozenContext, .serve 0 frozenContext]

theorem one_reply_frame_ping :
    parseRESP (writeRESP (dispatch pingCommand frozenContext (newStore 1 100)).1) =
        .ok ((dispatch pingCommand frozenContext (newStore 1 100)).1, []) ∧
      ∃ conn, ((Server.start (newStore 1 100)).run twoCommands).connections 0 = some conn ∧
        conn.answers.length = 2 ∧
        parseItems parseRESP conn.answers.length conn.output =
          .ok (conn.answers.map (·.reply), []) := by
  have hstore := newStore_deliverable 1 100
  constructor
  · exact (one_reply_frame.1 _ _ _ ⟨by decide, by decide⟩ hstore frozenContext_formatted).mpr
      (not_breaksLine_pingCommand _)
  · obtain ⟨conn, hconn, hargs⟩ : ∃ conn,
        ((Server.start (newStore 1 100)).run twoCommands).connections 0 = some conn ∧
          conn.answers.map (·.args) = [pingCommand, unknownCommand] := ⟨_, rfl, by decide⟩
    have hevents : ∀ e ∈ twoCommands, e.Formatted := by
      simp only [twoCommands, List.forall_mem_cons]
      exact ⟨trivial, frozenContext_formatted, frozenContext_formatted, fun _ h => nomatch h⟩
    have hlength := congrArg List.length hargs
    rw [List.length_map] at hlength
    refine ⟨conn, hconn, hlength, ?_⟩
    refine (one_reply_frame.2 _ _ 0 conn hstore hevents hconn).2.mpr fun a ha => ?_
    have ha : a.args ∈ [pingCommand, unknownCommand] := hargs ▸ List.mem_map_of_mem ha
    simp only [List.mem_cons, List.not_mem_nil, or_false] at ha
    rcases ha with ha | ha <;> rw [ha]
    · exact not_breaksLine_pingCommand _
    · exact not_breaksLine_unknownCommand _

/-- The text of a command that is not registered ends its frame early: the rest of it is read as
the reply to the next command. -/
theorem dispatch_two_frames :
    Receivable [ascii "a\n+b"] ∧ (newStore 1 100).Deliverable ∧ frozenContext.Formatted ∧
      parseRESP (writeRESP (dispatch [ascii "a\n+b"] frozenContext (newStore 1 100)).1) =
        .ok (.error (ascii "ERR unknown command 'a"), ascii "+b'\r\n") ∧
      parseRESP (writeRESP (dispatch [ascii "a\n+b"] frozenContext (newStore 1 100)).1) ≠
        .ok ((dispatch [ascii "a\n+b"] frozenContext (newStore 1 100)).1, []) := by
  have hparse : parseRESP (writeRESP (dispatch [ascii "a\n+b"] frozenContext (newStore 1 100)).1) =
      .ok (.error (ascii "ERR unknown command 'a"), ascii "+b'\r\n") := rfl
  refine ⟨⟨by decide, by decide⟩, newStore_deliverable 1 100, frozenContext_formatted, hparse, ?_⟩
  rw [hparse]
  intro h
  cases (Prod.mk.inj (Except.ok.inj h)).2

end

end SqlOptimizer.Cache
