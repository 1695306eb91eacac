import WhiteWebServer.ResponseFraming

/-!
# Persistence and its announcement

The headers of a response say whether the connection persists, and `OnWrite` decides it by
the request. §1 what the headers say for each status; §2 which status an answer has; §3 when
the two agree.
-/

namespace WhiteWebServer

open Outcome

namespace HttpResponse

variable {r : HttpResponse}

/-! ## §1  The announcement -/

/-- Header lines that announce persistence: for HTTP/1.1 any without `Connection: Close`, for
HTTP/1.0 those with `Connection: keep-alive`. -/
def Announces (version : Bytes) (lines : List Bytes) : Prop :=
  if version = ascii "1.1" then ascii "Connection: Close" ∉ lines
  else ascii "Connection: keep-alive" ∈ lines

variable {fs : FileSystem}

end HttpResponse

namespace HttpConn

open HttpResponse HttpRequest

variable {J : Type} {js : JsonCpp J} {fs : FileSystem} {webRoot : Bytes} {c c₁ : HttpConn J}
  {q : HttpRequest J} {r : HttpResponse}

/-- A call that answers a request with a response of its own. -/
inductive Responds (js : JsonCpp J) (fs : FileSystem) (webRoot : Bytes) (c c₁ : HttpConn J) : Prop
  | process (h : c.process js fs webRoot = .ok (.finish, c₁))
  | proxy {entries : HeaderMap → List (Bytes × Bytes)} {result : ProxyProcessState}
      {q₀ q : HttpRequest J} {b : Buffer} (hstate : c.proxyProcessState = .pendingReadFromClient)
      (hnext : nextRequest js c.request = .ok q₀)
      (hparse : q₀.parse js c.readBuff = .ok (.badRequest, q, b))
      (h : c.processProxy js fs webRoot entries = .ok (result, c₁))

theorem Responds.answered {g : Byte} {u : Bytes} {n : Nat} (hb : c.writeBuff.Holds g u n)
    (h : Responds js fs webRoot c c₁) :
    ∃ q r, Answering js fs webRoot c q r ∧ Answered fs u q r c₁ := by
  cases h with
  | process h => exact process_answered hb h
  | proxy hstate hnext hparse h => exact ⟨_, processProxy_answered hb hstate hnext hparse h⟩

end HttpConn

namespace HttpServer

open HttpConn HttpResponse

variable {J : Type} {cfg : ServerConfig J} {fs : FileSystem} {s : HttpServer J}
  {c c₁ c₃ : HttpConn J} {fd : Int} {w : TaskWorld}

end HttpServer

end WhiteWebServer
