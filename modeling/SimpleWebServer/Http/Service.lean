import SimpleWebServer.Http.RoundTrip
import SimpleWebServer.Http.ServerSegments

/-!
# A request and its answer

A client writes a request, the handler of the connection reads it, calls what is bound to its
path and writes the response, and the client parses what it is sent.  The request arrives in
one piece here; then the answer is the request itself, and behind it the response.
-/

namespace SimpleWebServer.Http

open SimpleWebServer.Base

/-- Wherever it lies, the parser takes the text at once, and hands out what `shown` says. -/
def IsRequest (version : HTTPVersion) (code : Int) (text : Bytes)
    (shown : HTTPRequestMessage → Prop) : Prop :=
  ∀ call : Call, call.Addresses [] text →
    Completes true version code [call] [] fun memory parser =>
      ∃ req, parser.getRequestMessage memory = .ok req ∧ shown req

theorem RequestRoundTrips.isRequest {version : HTTPVersion} {code : Int} {me : HTTPRequestMessage}
    (trips : RequestRoundTrips version code me) :
    ∃ pieces, HTTPMessageWriter.writeRequest me = .ok pieces ∧ pieces.flatten ≠ [] ∧
      IsRequest version code pieces.flatten (SameRequest me) := by
  obtain ⟨pieces, written, completes⟩ := trips
  refine ⟨pieces, written, ?_, ?_⟩
  · -- a new parser is not complete
    intro empty
    obtain ⟨parser, called, completed, -⟩ := completes [] [] [] trivial (by simp [empty])
    cases called
    cases completed.mpr rfl
  · intro call addresses
    exact completes [call] [pieces.flatten] [] ⟨addresses, trivial⟩ (by simp)

section

variable {paths : PathMap} {version : HTTPVersion} {code : Int} {text : Bytes}
  {shown : HTTPRequestMessage → Prop}

variable {write : Nat → Bytes → WriteResult} {cb : HTTPCallback} {res : HTTPResponseMessage}

end

end SimpleWebServer.Http
