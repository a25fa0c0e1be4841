import Coms4111.Spec.Sds
import Coms4111.Spec.Ziplist

/-!
# Requests (`redis-4.0.6/src/networking.c`, `deps/hiredis/hiredis.c`)

What a client sends arrives in pieces. `readQueryFromClient` puts a piece behind the query buffer,
and `processInputBuffer` takes the commands out of it that are complete. What it knows about one that
is not stays with the client: how many arguments are missing, and the length of the next.

An offset into the buffer that the code keeps is a number here as well, because the limit on a line
without an end counts what has been read already.

A command may stop the client: block it, pause the clients, or end the connection. What has been read
after it stays in the buffer. Left out are replication, the log, replies, what other clients do, and
how a client goes on that has been stopped.
-/

namespace Coms4111.Server

open Store

/-- `PROTO_IOBUF_LEN`. -/
def protoIobufLen : ℕ := 16 * 1024

/-- `PROTO_INLINE_MAX_SIZE`. -/
def protoInlineMaxSize : ℕ := 64 * 1024

/-- `PROTO_MBULK_BIG_ARG`. -/
def protoMbulkBigArg : ℕ := 32 * 1024

/-- `PROTO_MAX_QUERYBUF_LEN`. -/
def protoMaxQuerybufLen : ℕ := 1024 * 1024 * 1024

/-- The most arguments that a command may have. -/
def maxMultibulk : ℕ := 1024 * 1024

/-- The longest argument. -/
def maxBulk : ℕ := 512 * 1024 * 1024

/-! ## The client's side -/

def crlf : Bytes := [13, 10]

/-- An argument as `redisFormatSdsCommandArgv` writes it. -/
def formatArgument (arg : Bytes) : Bytes := 36 :: sdsfromlonglong arg.length ++ crlf ++ arg ++ crlf

/-- **`redisFormatSdsCommandArgv`**. -/
def redisFormatSdsCommandArgv (argv : List Bytes) : Bytes :=
  42 :: sdsfromlonglong argv.length ++ crlf ++ argv.flatMap formatArgument

/-! ## The query buffer -/

inductive ReqType
  | inline
  | multibulk
  deriving DecidableEq

inductive ProtocolError
  | tooBigMbulkCount
  | invalidMultibulkLength
  | tooBigBulkCount
  | expectedDollar (got : UInt8)
  | invalidBulkLength
  | tooBigInline
  | unbalancedQuotes
  deriving DecidableEq

/-- The text that is sent as an error. A line break in it becomes a space. -/
def ProtocolError.text : ProtocolError → Bytes
  | tooBigMbulkCount => ascii "Protocol error: too big mbulk count string"
  | invalidMultibulkLength => ascii "Protocol error: invalid multibulk length"
  | tooBigBulkCount => ascii "Protocol error: too big bulk count string"
  | expectedDollar got =>
    ascii "Protocol error: expected '$', got '" ++ [if got = 13 ∨ got = 10 then 32 else got] ++ ascii "'"
  | invalidBulkLength => ascii "Protocol error: invalid bulk length"
  | tooBigInline => ascii "Protocol error: too big inline request"
  | unbalancedQuotes => ascii "Protocol error: unbalanced quotes in request"

/-- What a client waits for that is blocked: `BLOCKED_LIST`, `BLOCKED_WAIT`, `BLOCKED_MODULE`. -/
inductive Btype
  | list
  | wait
  | module
  deriving DecidableEq

/-- Why a connection is to be closed: a protocol error, or a command that has set one of the flags. -/
inductive Closing
  | protocolError (e : ProtocolError)
  | command
  deriving DecidableEq

/-- **A client**, as far as reading is concerned. `closeAfterReply` stands for the flags
`CLIENT_CLOSE_AFTER_REPLY` and `CLIENT_CLOSE_ASAP`, with the reason; `blocked` for `CLIENT_BLOCKED`, with
`btype`. -/
structure Client where
  querybuf : Bytes
  reqtype : Option ReqType
  multibulklen : ℕ
  bulklen : Option ℕ
  argv : List Bytes
  closeAfterReply : Option Closing
  blocked : Option Btype
  deriving DecidableEq

def Client.create : Client := ⟨[], none, 0, none, [], none, none⟩

namespace Client

/-- `resetClient`. -/
def resetClient (c : Client) : Client :=
  { c with argv := [], reqtype := none, multibulklen := 0, bulklen := none }

/-- `setProtocolError`. -/
def setProtocolError (c : Client) (e : ProtocolError) (pos : ℕ) : Client :=
  { c with closeAfterReply := some (.protocolError e), querybuf := c.querybuf.drop pos }

end Client

/-- `strchr` from an offset on: a C string ends at the first byte that is zero. -/
def strchr (buf : Bytes) (pos : ℕ) (ch : UInt8) : Option ℕ :=
  (((buf.drop pos).takeWhile (· ≠ 0)).findIdx? (· == ch)).map (pos + ·)

/-! ## `processMultibulkBuffer` -/

/-- How a step of the loop goes on: with the client and an offset, by waiting for more, or with an
error and the offset up to which the buffer is dropped. -/
inductive BulkStep
  | next (c : Client) (pos : ℕ)
  | wait
  | error (e : ProtocolError) (pos : ℕ)

/-- Reading the length of an argument. A large argument is to start where the buffer does. -/
def readBulklen (c : Client) (pos : ℕ) : BulkStep :=
  match strchr c.querybuf pos 13 with
  | none => if protoInlineMaxSize < c.querybuf.length then .error .tooBigBulkCount 0 else .wait
  | some newline =>
    if c.querybuf.length < newline + 2 then .wait
    else if byteAt c.querybuf pos ≠ 36 then .error (.expectedDollar (byteAt c.querybuf pos)) pos
    else match string2ll (slice c.querybuf (pos + 1) (newline - (pos + 1))) with
      | none => .error .invalidBulkLength pos
      | some ll =>
        if ll < 0 ∨ maxBulk < ll then .error .invalidBulkLength pos
        else if protoMbulkBigArg ≤ ll then
          .next { c with querybuf := c.querybuf.drop (newline + 2), bulklen := some ll.toNat } 0
        else .next { c with bulklen := some ll.toNat } (newline + 2)

/-- Reading an argument of the length `n`. If the buffer is just that, it becomes the argument. -/
def readBulk (c : Client) (pos n : ℕ) : BulkStep :=
  if c.querybuf.length - pos < n + 2 then .wait
  else if pos = 0 ∧ protoMbulkBigArg ≤ n ∧ c.querybuf.length = n + 2 then
    .next { c with argv := c.argv ++ [c.querybuf.take n], querybuf := [], bulklen := none,
                   multibulklen := c.multibulklen - 1 } 0
  else
    .next { c with argv := c.argv ++ [slice c.querybuf pos n], bulklen := none,
                   multibulklen := c.multibulklen - 1 } (pos + (n + 2))

/-- The length is read if it is unknown. -/
def knowBulklen (c : Client) (pos : ℕ) : BulkStep :=
  match c.bulklen with
  | some _ => .next c pos
  | none => readBulklen c pos

/-- The loop over the arguments that are missing, and the offset where it ends unless there is an
error. -/
def multibulkLoop : ℕ → Client → ℕ → Client × Option ℕ
  | 0, c, pos => (c, some pos)
  | n + 1, c, pos =>
    match knowBulklen c pos with
    | .wait => (c, some pos)
    | .error e pos => (c.setProtocolError e pos, none)
    | .next c pos => match readBulk c pos (c.bulklen.getD 0) with
      | .next c pos => multibulkLoop n c pos
      | _ => (c, some pos)

/-- The loop, and the end of `processMultibulkBuffer`: whether the command is complete. -/
def readArguments (c : Client) (pos : ℕ) : Bool × Client :=
  match multibulkLoop c.multibulklen c pos with
  | (c, none) => (false, c)
  | (c, some pos) => (c.multibulklen = 0, { c with querybuf := c.querybuf.drop pos })

/-- **`processMultibulkBuffer`**; `none` if an assertion fails. -/
def processMultibulkBuffer (c : Client) : Option (Bool × Client) :=
  if c.multibulklen = 0 then
    if c.argv ≠ [] then none
    else match strchr c.querybuf 0 13 with
      | none =>
        if protoInlineMaxSize < c.querybuf.length then some (false, c.setProtocolError .tooBigMbulkCount 0)
        else some (false, c)
      | some newline =>
        if c.querybuf.length < newline + 2 then some (false, c)
        else if byteAt c.querybuf 0 ≠ 42 then none
        else match string2ll (slice c.querybuf 1 (newline - 1)) with
          | none => some (false, c.setProtocolError .invalidMultibulkLength 0)
          | some ll =>
            if maxMultibulk < ll then some (false, c.setProtocolError .invalidMultibulkLength 0)
            else if ll ≤ 0 then some (true, { c with querybuf := c.querybuf.drop (newline + 2) })
            else some (readArguments { c with multibulklen := ll.toNat } (newline + 2))
  else some (readArguments c 0)

/-! ## `processInlineBuffer` -/

/-- **`processInlineBuffer`**. Two bytes are dropped behind the line, also if it ends in only
one. -/
def processInlineBuffer (c : Client) : Bool × Client :=
  match strchr c.querybuf 0 10 with
  | none =>
    if protoInlineMaxSize < c.querybuf.length then (false, c.setProtocolError .tooBigInline 0) else (false, c)
  | some newline =>
    let querylen := if newline ≠ 0 ∧ byteAt c.querybuf (newline - 1) = 13 then newline - 1 else newline
    match sdssplitargs (c.querybuf.take querylen) with
    | none => (false, c.setProtocolError .unbalancedQuotes 0)
    | some argv => (true, { c with querybuf := c.querybuf.drop (querylen + 2), argv := argv.filter (· ≠ []) })

/-! ## A round of `processInputBuffer` -/

/-- The type of a request, by its first byte. -/
def Client.withReqtype (c : Client) : Client :=
  match c.reqtype with
  | some _ => c
  | none => { c with reqtype := some (if byteAt c.querybuf 0 = 42 then .multibulk else .inline) }

def Client.process (c : Client) : Option (Bool × Client) :=
  match c.reqtype with
  | some .multibulk => processMultibulkBuffer c
  | _ => some (processInlineBuffer c)

/-! ## Commands -/

/-- What a command does to its client: nothing, block it, set a flag that closes it, or that and
`C_ERR`. -/
inductive Effect
  | goesOn
  | blocks (btype : Btype)
  | closes
  | quits
  deriving DecidableEq

/-- The client after a command. It is reset, but not with `C_ERR`, and not while a module blocks it,
which still needs the arguments. -/
def Client.executed (c : Client) : Effect → Client
  | .goesOn => c.resetClient
  | .blocks .module => { c with blocked := some .module }
  | .blocks btype => { c.resetClient with blocked := some btype }
  | .closes => { c.resetClient with closeAfterReply := some .command }
  | .quits => { c with closeAfterReply := some .command }

def tolower (b : UInt8) : UInt8 := if 65 ≤ b ∧ b ≤ 90 then b + 32 else b

/-- `!strcasecmp(c->argv[0]->ptr, "quit")`. -/
def isQuit (argv : List Bytes) : Bool := ((argv.headD []).takeWhile (· ≠ 0)).map tolower = ascii "quit"

/-- **The server behind a connection**, over whatever it may hold: how it executes a command, and
whether its clients are paused. -/
structure Service (σ : Type) where
  call : List Bytes → σ → Effect × σ
  clientsArePaused : σ → Bool

variable {σ : Type} (Z : Service σ)

/-- `processCommand`, which takes care of `QUIT` itself. -/
def Service.processCommand (argv : List Bytes) (s : σ) : Effect × σ :=
  if isQuit argv then (.quits, s) else Z.call argv s

/-! ## Reading -/

/-- The loop of `processInputBuffer`, for at most `n` rounds. -/
def processInputLoop : ℕ → Client → σ → Option (Client × σ)
  | 0, c, s => some (c, s)
  | n + 1, c, s =>
    if c.querybuf = [] then some (c, s)
    else if Z.clientsArePaused s = true ∨ c.blocked ≠ none ∨ c.closeAfterReply ≠ none then some (c, s)
    else match c.withReqtype.process with
      | none => none
      | some (false, c) => some (c, s)
      | some (true, c) =>
        if c.argv = [] then processInputLoop n c.resetClient s
        else processInputLoop n (c.executed (Z.processCommand c.argv s).1) (Z.processCommand c.argv s).2

/-- **`processInputBuffer`**: the client, and the server after the commands. A round that does not end the
loop takes a byte at least. -/
def processInputBuffer (c : Client) (s : σ) : Option (Client × σ) := processInputLoop Z c.querybuf.length c s

/-- How many bytes `readQueryFromClient` asks for. -/
def Client.readlen (c : Client) : ℤ :=
  match c.bulklen with
  | some n =>
    if c.reqtype = some .multibulk ∧ c.multibulklen ≠ 0 ∧ protoMbulkBigArg ≤ n then
      min protoIobufLen ((n + 2 : ℤ) - c.querybuf.length)
    else protoIobufLen
  | none => protoIobufLen

/-- Why a connection ends that the client has not closed: the server has stopped at an assertion,
has closed the connection because the query buffer is too long, or has taken a read of zero bytes for
the end. -/
inductive Stop
  | assertion
  | maxQuerybuf
  | closed
  deriving DecidableEq

/-- A connection: the client, the server, and what has been sent and not been read. -/
structure Connection (σ : Type) where
  client : Client
  server : σ
  sent : Bytes

/-- **`readQueryFromClient`**, if `n` bytes have arrived. -/
def readQueryFromClient (n : ℕ) (C : Connection σ) : Except Stop (Connection σ) :=
  if n = 0 ∨ C.sent = [] then .ok C
  else
    let nread := min n C.client.readlen.toNat
    if nread = 0 then .error .closed
    else
      let c := { C.client with querybuf := C.client.querybuf ++ C.sent.take nread }
      if protoMaxQuerybufLen < c.querybuf.length then .error .maxQuerybuf
      else match processInputBuffer Z c C.server with
        | none => .error .assertion
        | some (c, s) => .ok ⟨c, s, C.sent.drop nread⟩

/-- One read after the other, with as many bytes as have arrived each time. -/
def readAll : List ℕ → Connection σ → Except Stop (Connection σ)
  | [], C => .ok C
  | n :: ns, C => do readAll ns (← readQueryFromClient Z n C)

end Coms4111.Server
