import Foxy.X3

/-!
# Foxy.Uri.Rules

The rules of `foxy/uri.hpp` over `char`, one definition for each
`BOOST_SPIRIT_DEFINE`, in the order of the source. `a >> b` is `Peg.seq a b`,
`a | b` is `Peg.alt a b`, `-a`, `*a` and `+a` are `Peg.opt`, `Peg.star` and
`Peg.plus`, and `x3::repeat(lo, hi)[a]` is `Peg.between lo hi a`.

None of the repetitions has a nullable body, so `Peg.star` agrees with X3's
unbounded loop everywhere here.
-/

namespace Foxy.Uri

open Peg X3

/-- `sub-delims = "!" / "$" / "&" / "'" / "(" / ")" / "*" / "+" / "," / ";" / "="`. -/
def subDelims : Peg UInt8 := charOf "!$&'()*+,;="

/-- `gen-delims = ":" / "/" / "?" / "#" / "[" / "]" / "@"`. -/
def genDelims : Peg UInt8 := charOf ":/?#[]@"

/-- `reserved = gen-delims / sub-delims`. -/
def reserved : Peg UInt8 := alt genDelims subDelims

/-- `unreserved = ALPHA / DIGIT / "-" / "." / "_" / "~"`. -/
def unreserved : Peg UInt8 := alt (alt alpha digit) (charOf "-._~")

/-- `pct-encoded = "%" HEXDIG HEXDIG`. -/
def pctEncoded : Peg UInt8 := seq (seq (lit "%") xdigit) xdigit

/-- `pchar = unreserved / pct-encoded / sub-delims / ":" / "@"`. -/
def pchar : Peg UInt8 := alt (alt (alt unreserved pctEncoded) subDelims) (charOf ":@")

/-- `query = *( pchar / "/" / "?" )`. -/
def query : Peg UInt8 := star (alt pchar (charOf "/?"))

/-- `fragment = *( pchar / "/" / "?" )`. -/
def fragment : Peg UInt8 := star (alt pchar (charOf "/?"))

/-- `segment = *pchar`. -/
def segment : Peg UInt8 := star pchar

/-- `segment-nz = 1*pchar`. -/
def segmentNz : Peg UInt8 := plus pchar

/-- `segment-nz-nc = 1*( unreserved / pct-encoded / sub-delims / "@" )`. -/
def segmentNzNc : Peg UInt8 := plus (alt (alt (alt unreserved pctEncoded) subDelims) (lit "@"))

/-- `path-empty = 0<pchar>`. -/
def pathEmpty : Peg UInt8 := times 0 pchar

/-- `path-rootless = segment-nz *( "/" segment )`. -/
def pathRootless : Peg UInt8 := seq segmentNz (star (seq (lit "/") segment))

/-- `path-noscheme = segment-nz-nc *( "/" segment )`. -/
def pathNoscheme : Peg UInt8 := seq segmentNzNc (star (seq (lit "/") segment))

/-- `path-absolute = "/" [ segment-nz *( "/" segment ) ]`. -/
def pathAbsolute : Peg UInt8 :=
  seq (charOf "/") (opt (seq segmentNz (star (seq (lit "/") segment))))

/-- `path-abempty = *( "/" segment )`. -/
def pathAbempty : Peg UInt8 := star (seq (charOf "/") segment)

/-- `path = path-abempty / path-absolute / path-noscheme / path-rootless / path-empty`. -/
def path : Peg UInt8 :=
  alt (alt (alt (alt pathAbempty pathAbsolute) pathNoscheme) pathRootless) pathEmpty

/-- `reg-name = *( unreserved / pct-encoded / sub-delims )`. -/
def regName : Peg UInt8 := star (alt (alt unreserved pctEncoded) subDelims)

/-- `dec-octet`, the alternatives from the longest numeral to the shortest. -/
def decOctet : Peg UInt8 :=
  alt (alt (alt (alt
    (seq (lit "25") (charOf "0-5"))
    (seq (seq (lit "2") (charOf "0-4")) digit))
    (seq (lit "1") (times 2 digit)))
    (seq (charOf "1-9") digit))
    digit

/-- `IPv4address = dec-octet "." dec-octet "." dec-octet "." dec-octet`. -/
def ipV4Address : Peg UInt8 :=
  seq (seq (seq (seq (seq (seq decOctet (lit ".")) decOctet) (lit ".")) decOctet) (lit "."))
    decOctet

/-- `h16 = 1*4HEXDIG`. -/
def h16 : Peg UInt8 := between 1 4 xdigit

/-- `ls32 = ( h16 ":" h16 ) / IPv4address`. -/
def ls32 : Peg UInt8 := alt (seq (seq h16 (lit ":")) h16) ipV4Address

/-- `IPv6address`, the nine alternatives of the source. The fifth writes its
tail as `ls32` followed by two groups, and from there on the groups before `::`
are led by an `h16` instead of ended by one. -/
def ipV6Address : Peg UInt8 :=
  alt (alt (alt (alt (alt (alt (alt (alt
    -- 6( h16 ":" ) ls32
    (seq (times 6 (seq h16 (lit ":"))) ls32)
    -- "::" 5( h16 ":" ) ls32
    (seq (seq (lit "::") (times 5 (seq h16 (lit ":")))) ls32))
    -- [ h16 ] "::" 4( h16 ":" ) ls32
    (seq (seq (seq (opt h16) (lit "::")) (times 4 (seq h16 (lit ":")))) ls32))
    -- [ *1( h16 ":" ) h16 ] "::" 3( h16 ":" ) ls32
    (seq (seq (seq (opt (seq (between 0 1 (seq h16 (lit ":"))) h16)) (lit "::"))
      (times 3 (seq h16 (lit ":")))) ls32))
    -- [ *2( h16 ":" ) h16 ] "::" 2( h16 ":" ) ls32
    (seq (seq (opt (seq h16 (between 0 2 (seq (lit ":") h16)))) (lit "::"))
      (seq ls32 (times 2 (seq (lit ":") h16)))))
    -- [ *3( h16 ":" ) h16 ] "::" h16 ":" ls32
    (seq (seq (seq (seq (opt (seq h16 (between 0 3 (seq (lit ":") h16)))) (lit "::")) h16)
      (lit ":")) ls32))
    -- [ *4( h16 ":" ) h16 ] "::" ls32
    (seq (seq (opt (seq h16 (between 0 4 (seq (lit ":") h16)))) (lit "::")) ls32))
    -- [ *5( h16 ":" ) h16 ] "::" h16
    (seq (seq (opt (seq h16 (between 0 5 (seq (lit ":") h16)))) (lit "::")) h16))
    -- [ *6( h16 ":" ) h16 ] "::"
    (seq (opt (seq h16 (between 0 6 (seq (lit ":") h16)))) (lit "::"))

/-- `IPvFuture = "v" 1*HEXDIG "." 1*( unreserved / sub-delims / ":" )`. -/
def ipVfuture : Peg UInt8 :=
  seq (seq (seq (lit "v") (plus xdigit)) (lit ".")) (plus (alt (alt unreserved subDelims) (lit ":")))

/-- `IP-literal = "[" ( IPv6address / IPvFuture  ) "]"`. -/
def ipLiteral : Peg UInt8 := seq (seq (lit "[") (alt ipV6Address ipVfuture)) (lit "]")

/-- `port = *DIGIT`. -/
def port : Peg UInt8 := star digit

/-- `host = IP-literal / IPv4address / reg-name`. -/
def host : Peg UInt8 := alt (alt ipLiteral ipV4Address) regName

/-- `userinfo = *( unreserved / pct-encoded / sub-delims / ":" )`. -/
def userinfo : Peg UInt8 := star (alt (alt (alt unreserved pctEncoded) subDelims) (lit ":"))

/-- `authority = [ userinfo "@" ] host [ ":" port ]`. -/
def authority : Peg UInt8 :=
  seq (seq (opt (seq userinfo (lit "@"))) host) (opt (seq (lit ":") port))

/-- `scheme`, with the character set as the source spells it. -/
def scheme : Peg UInt8 := seq alpha (star (alt (alt alpha digit) (charOf "+-.")))

/-- `relative-part = "//" authority path-abempty / path-absolute / path-noscheme / path-empty`. -/
def relativePart : Peg UInt8 :=
  alt (alt (alt (seq (seq (lit "//") authority) pathAbempty) pathAbsolute) pathNoscheme) pathEmpty

/-- `relative-ref = relative-part [ "?" query ] [ "#" fragment ]`. -/
def relativeRef : Peg UInt8 :=
  seq (seq relativePart (opt (seq (lit "?") query))) (opt (seq (lit "#") fragment))

/-- `hier-part = "//" authority path-abempty / path-absolute / path-rootless / path-empty`. -/
def hierPart : Peg UInt8 :=
  alt (alt (alt (seq (seq (lit "//") authority) pathAbempty) pathAbsolute) pathRootless) pathEmpty

/-- `URI = scheme ":" hier-part [ "?" query ] [ "#" fragment ]`. -/
def uri : Peg UInt8 :=
  seq (seq (seq (seq scheme (lit ":")) hierPart) (opt (seq (lit "?") query)))
    (opt (seq (lit "#") fragment))

/-- `absolute-URI = scheme ":" hier-part [ "?" query ]`. -/
def absoluteUri : Peg UInt8 :=
  seq (seq (seq scheme (lit ":")) hierPart) (opt (seq (lit "?") query))

/-- `URI-reference = URI / relative-ref`. -/
def uriReference : Peg UInt8 := alt uri relativeRef

end Foxy.Uri
