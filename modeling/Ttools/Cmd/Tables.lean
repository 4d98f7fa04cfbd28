/-!
# The instruction tables

The commands that the assembler knows (`CMDDEF` in `ast/scan.l`) and the tables that the
disassembler looks them up in (`dast/dastabs.h`, which `mktabs` has generated).  Of an array of
strings only the entries that are not `NULL` are listed, with its length beside it.
-/

namespace Ttools

/-! ### The assembler -/

/-- The direct commands, `TOK_CMD_DIRECT` and `TOK_CMD_DIRECT_PCREL`, and their opcodes. -/
def scanDirect : List (String × Nat) :=
  [("j", 0x00), ("ldlp", 0x10), ("pfix", 0x20), ("ldnl", 0x30), ("ldc", 0x40), ("ldnlp", 0x50),
    ("nfix", 0x60), ("ldl", 0x70), ("adc", 0x80), ("call", 0x90), ("cj", 0xa0), ("ajw", 0xb0),
    ("eqc", 0xc0), ("stl", 0xd0), ("stnl", 0xe0), ("opr", 0xf0)]

/-- The indirect commands, `TOK_CMD_INDIR`, and their codes. -/
def scanIndir : List (String × Int) :=
  [("rev", 0x00), ("lb", 0x01), ("bsub", 0x02), ("endp", 0x03), ("diff", 0x04), ("add", 0x05),
    ("gcall", 0x06), ("in", 0x07), ("prod", 0x08), ("gt", 0x09), ("wsub", 0x0a), ("out", 0x0b),
    ("sub", 0x0c), ("startp", 0x0d), ("outbyte", 0x0e), ("outword", 0x0f), ("seterr", 0x10),
    ("resetch", 0x12), ("csub0", 0x13), ("stopp", 0x15), ("ladd", 0x16), ("stlb", 0x17),
    ("sthf", 0x18), ("norm", 0x19), ("ldiv", 0x1a), ("ldpi", 0x1b), ("stlf", 0x1c),
    ("xdble", 0x1d), ("ldpri", 0x1e), ("rem", 0x1f), ("ret", 0x20), ("lend", 0x21),
    ("ldtimer", 0x22), ("testerr", 0x29), ("testpranal", 0x2a), ("tin", 0x2b), ("div", 0x2c),
    ("dist", 0x2e), ("disc", 0x2f), ("diss", 0x30), ("lmul", 0x31), ("not", 0x32), ("xor", 0x33),
    ("bcnt", 0x34), ("lshr", 0x35), ("lshl", 0x36), ("lsum", 0x37), ("lsub", 0x38),
    ("runp", 0x39), ("xword", 0x3a), ("sb", 0x3b), ("gajw", 0x3c), ("savel", 0x3d),
    ("saveh", 0x3e), ("wcnt", 0x3f), ("shr", 0x40), ("shl", 0x41), ("mint", 0x42), ("alt", 0x43),
    ("altwt", 0x44), ("altend", 0x45), ("and", 0x46), ("enbt", 0x47), ("enbc", 0x48),
    ("enbs", 0x49), ("move", 0x4a), ("or", 0x4b), ("csngl", 0x4c), ("ccnt1", 0x4d),
    ("talt", 0x4e), ("ldiff", 0x4f), ("sthb", 0x50), ("taltwt", 0x51), ("sum", 0x52),
    ("mul", 0x53), ("sttimer", 0x54), ("stoperr", 0x55), ("cword", 0x56), ("clrhalterr", 0x57),
    ("sethalterr", 0x58), ("testhalterr", 0x59), ("dup", 0x5a), ("move2dinit", 0x5b),
    ("move2dall", 0x5c), ("move2dnonzero", 0x5d), ("move2dzero", 0x5e), ("gtu", 0x5f),
    ("unpacksn", 0x63), ("slmul", 0x64), ("sulmul", 0x65), ("satadd", 0x68), ("satsub", 0x69),
    ("satmul", 0x6a), ("postnormsn", 0x6c), ("roundsn", 0x6d), ("ldtraph", 0x6e),
    ("ldinf", 0x71), ("fmul", 0x72), ("cflerr", 0x73), ("crcword", 0x74), ("crcbyte", 0x75),
    ("bitcnt", 0x76), ("bitrevword", 0x77), ("bitrevnbits", 0x78), ("pop", 0x79),
    ("ldmemstartval", 0x7e), ("wsubdb", 0x81), ("fpldnldbi", 0x82), ("fpchkerr", 0x83),
    ("fpstnldb", 0x84), ("fpldnlsni", 0x86), ("fpadd", 0x87), ("fpstnlsn", 0x88),
    ("fpsub", 0x89), ("fpldnldb", 0x8a), ("fpmul", 0x8b), ("fpdiv", 0x8c), ("fprange", 0x8d),
    ("fpldnlsn", 0x8e), ("fpremfirst", 0x8f), ("fpremstep", 0x90), ("fpnan", 0x91),
    ("fpordered", 0x92), ("fpnotfinite", 0x93), ("fpgt", 0x94), ("fpeq", 0x95),
    ("fpi32tor32", 0x96), ("fpge", 0x97), ("fpi32tor64", 0x98), ("fpb32tor64", 0x9a),
    ("fplg", 0x9b), ("fptesterr", 0x9c), ("fprtoi32", 0x9d), ("fpstnli32", 0x9e),
    ("fpldzerosn", 0x9f), ("fpldzerodb", 0xa0), ("fpint", 0xa1), ("fpdup", 0xa3),
    ("fprev", 0xa4), ("fpldnladddb", 0xa6), ("fpldnlmuldb", 0xa8), ("fpldnladdsn", 0xaa),
    ("fpentry", 0xab), ("fpldnlmulsn", 0xac), ("settimeslice", 0xb0), ("ldflags", 0xb6),
    ("stflags", 0xb7), ("xbword", 0xb8), ("lbx", 0xb9), ("cb", 0xba), ("cbu", 0xbb),
    ("insphdr", 0xbc), ("readbfr", 0xbd), ("ldconf", 0xbe), ("stconf", 0xbf), ("ldcnt", 0xc0),
    ("ssub", 0xc1), ("ldth", 0xc2), ("ldchstatus", 0xc3), ("intdis", 0xc4), ("intenb", 0xc5),
    ("ldtrapped", 0xc6), ("cir", 0xc7), ("ss", 0xc8), ("chantype", 0xc9), ("ls", 0xca),
    ("sttrapped", 0xcb), ("ciru", 0xcc), ("gintdis", 0xcd), ("gintenb", 0xce), ("fprem", 0xcf),
    ("fprn", 0xd0), ("fpdivby2", 0xd1), ("fpmulby2", 0xd2), ("fpsqrt", 0xd3), ("fprp", 0xd4),
    ("fprm", 0xd5), ("fprz", 0xd6), ("fpr32tor64", 0xd7), ("fpr64tor32", 0xd8),
    ("fpexpdec32", 0xd9), ("fpexpinc32", 0xda), ("fpabs", 0xdb), ("fpchki32", 0xde),
    ("fpchki64", 0xdf), ("devlb", 0xf0), ("devsb", 0xf1), ("devls", 0xf2), ("devss", 0xf3),
    ("devlw", 0xf4), ("devsw", 0xf5), ("xsword", 0xf8), ("lsx", 0xf9), ("cs", 0xfa),
    ("csu", 0xfb), ("togglemonitor", 0xfc), ("toggledisasm", 0xfd), ("terminate", 0xfe),
    ("marker", 0xff), ("lddevid", 0x17c), ("fpstall", -0x01), ("fpldall", -0x02),
    ("stshadow", -0x03), ("ldshadow", -0x04), ("tret", -0x05), ("goprot", -0x06),
    ("selth", -0x07), ("syscall", -0x08), ("trapenb", -0x09), ("trapdis", -0x0a),
    ("wait", -0x0b), ("signal", -0x0c), ("timeslice", -0x0d), ("insertqueue", -0x0e),
    ("swaptimer", -0x0f), ("swapqueue", -0x10), ("iret", -0x11), ("stopch", -0x12),
    ("vout", -0x13), ("vin", -0x14), ("swapbfr", -0x17), ("sethdr", -0x18), ("setchmode", -0x19),
    ("initvlcb", -0x1a), ("writehdr", -0x1b), ("readhdr", -0x1c), ("disg", -0x1d),
    ("enbg", -0x1e), ("grant", -0x1f), ("stmove2dinit", -0x20), ("causeerror", -0x21),
    ("restart", -0x22), ("unmkrc", -0x23), ("mkrc", -0x24), ("irdsq", -0x25), ("erdsq", -0x26),
    ("stresptr", -0x27), ("ldresptr", -0x28), ("devmove", -0x2c), ("icl", -0x2d),
    ("fdcl", -0x2e), ("ica", -0x2f), ("fdca", -0x30), ("nop", -0x40), ("clockenb", -0x41),
    ("clockdis", -0x42), ("ldclock", -0x43), ("stclock", -0x44), ("reboot", -0x83),
    ("ldprodid", -0x84)]

/-- The commands of the floating point unit, `TOK_CMD_FPU`, and their codes. -/
def scanFpu : List (String × Int) :=
  [("fpusqrtfirst", 0x01), ("fpusqrtstep", 0x02), ("fpusqrtlast", 0x03), ("fpurp", 0x04),
    ("fpurm", 0x05), ("fpurz", 0x06), ("fpur32tor64", 0x07), ("fpur64tor32", 0x08),
    ("fpuexpdec32", 0x09), ("fpuexpinc32", 0x0a), ("fpuabs", 0x0b), ("fpunoround", 0x0d),
    ("fpuchki32", 0x0e), ("fpuchki64", 0x0f), ("fpudivby2", 0x11), ("fpumulby2", 0x12),
    ("fpurn", 0x22), ("fpuseterr", 0x23), ("fpuclrerr", 0x9c)]

/-! ### The disassembler -/

/-- `tab_direct`. -/
def tabDirect : List (Nat × String) :=
  [(0x00, "j"), (0x10, "ldlp"), (0x20, "pfix"), (0x30, "ldnl"), (0x40, "ldc"), (0x50, "ldnlp"),
    (0x60, "nfix"), (0x70, "ldl"), (0x80, "adc"), (0x90, "call"), (0xa0, "cj"), (0xb0, "ajw"),
    (0xc0, "eqc"), (0xd0, "stl"), (0xe0, "stnl"), (0xf0, "opr")]

/-- The indices at which `tab_pcrel` is set. -/
def tabPcrel : List Nat := [0x00, 0x90, 0xa0]

/-- `tab_indir`. -/
def tabIndir : List (Nat × String) :=
  [(0x00, "rev"), (0x01, "lb"), (0x02, "bsub"), (0x03, "endp"), (0x04, "diff"), (0x05, "add"),
    (0x06, "gcall"), (0x07, "in"), (0x08, "prod"), (0x09, "gt"), (0x0a, "wsub"), (0x0b, "out"),
    (0x0c, "sub"), (0x0d, "startp"), (0x0e, "outbyte"), (0x0f, "outword"), (0x10, "seterr"),
    (0x12, "resetch"), (0x13, "csub0"), (0x15, "stopp"), (0x16, "ladd"), (0x17, "stlb"),
    (0x18, "sthf"), (0x19, "norm"), (0x1a, "ldiv"), (0x1b, "ldpi"), (0x1c, "stlf"),
    (0x1d, "xdble"), (0x1e, "ldpri"), (0x1f, "rem"), (0x20, "ret"), (0x21, "lend"),
    (0x22, "ldtimer"), (0x29, "testerr"), (0x2a, "testpranal"), (0x2b, "tin"), (0x2c, "div"),
    (0x2e, "dist"), (0x2f, "disc"), (0x30, "diss"), (0x31, "lmul"), (0x32, "not"), (0x33, "xor"),
    (0x34, "bcnt"), (0x35, "lshr"), (0x36, "lshl"), (0x37, "lsum"), (0x38, "lsub"),
    (0x39, "runp"), (0x3a, "xword"), (0x3b, "sb"), (0x3c, "gajw"), (0x3d, "savel"),
    (0x3e, "saveh"), (0x3f, "wcnt"), (0x40, "shr"), (0x41, "shl"), (0x42, "mint"), (0x43, "alt"),
    (0x44, "altwt"), (0x45, "altend"), (0x46, "and"), (0x47, "enbt"), (0x48, "enbc"),
    (0x49, "enbs"), (0x4a, "move"), (0x4b, "or"), (0x4c, "csngl"), (0x4d, "ccnt1"),
    (0x4e, "talt"), (0x4f, "ldiff"), (0x50, "sthb"), (0x51, "taltwt"), (0x52, "sum"),
    (0x53, "mul"), (0x54, "sttimer"), (0x55, "stoperr"), (0x56, "cword"), (0x57, "clrhalterr"),
    (0x58, "sethalterr"), (0x59, "testhalterr"), (0x5a, "dup"), (0x5b, "move2dinit"),
    (0x5c, "move2dall"), (0x5d, "move2dnonzero"), (0x5e, "move2dzero"), (0x5f, "gtu"),
    (0x63, "unpacksn"), (0x64, "slmul"), (0x65, "sulmul"), (0x68, "satadd"), (0x69, "satsub"),
    (0x6a, "satmul"), (0x6c, "postnormsn"), (0x6d, "roundsn"), (0x6e, "ldtraph"),
    (0x71, "ldinf"), (0x72, "fmul"), (0x73, "cflerr"), (0x74, "crcword"), (0x75, "crcbyte"),
    (0x76, "bitcnt"), (0x77, "bitrevword"), (0x78, "bitrevnbits"), (0x79, "pop"),
    (0x7e, "ldmemstartval"), (0x81, "wsubdb"), (0x82, "fpldnldbi"), (0x83, "fpchkerr"),
    (0x84, "fpstnldb"), (0x86, "fpldnlsni"), (0x87, "fpadd"), (0x88, "fpstnlsn"),
    (0x89, "fpsub"), (0x8a, "fpldnldb"), (0x8b, "fpmul"), (0x8c, "fpdiv"), (0x8d, "fprange"),
    (0x8e, "fpldnlsn"), (0x8f, "fpremfirst"), (0x90, "fpremstep"), (0x91, "fpnan"),
    (0x92, "fpordered"), (0x93, "fpnotfinite"), (0x94, "fpgt"), (0x95, "fpeq"),
    (0x96, "fpi32tor32"), (0x97, "fpge"), (0x98, "fpi32tor64"), (0x9a, "fpb32tor64"),
    (0x9b, "fplg"), (0x9c, "fptesterr"), (0x9d, "fprtoi32"), (0x9e, "fpstnli32"),
    (0x9f, "fpldzerosn"), (0xa0, "fpldzerodb"), (0xa1, "fpint"), (0xa3, "fpdup"),
    (0xa4, "fprev"), (0xa6, "fpldnladddb"), (0xa8, "fpldnlmuldb"), (0xaa, "fpldnladdsn"),
    (0xab, "fpentry"), (0xac, "fpldnlmulsn"), (0xb0, "settimeslice"), (0xb6, "ldflags"),
    (0xb7, "stflags"), (0xb8, "xbword"), (0xb9, "lbx"), (0xba, "cb"), (0xbb, "cbu"),
    (0xbc, "insphdr"), (0xbd, "readbfr"), (0xbe, "ldconf"), (0xbf, "stconf"), (0xc0, "ldcnt"),
    (0xc1, "ssub"), (0xc2, "ldth"), (0xc3, "ldchstatus"), (0xc4, "intdis"), (0xc5, "intenb"),
    (0xc6, "ldtrapped"), (0xc7, "cir"), (0xc8, "ss"), (0xc9, "chantype"), (0xca, "ls"),
    (0xcb, "sttrapped"), (0xcc, "ciru"), (0xcd, "gintdis"), (0xce, "gintenb"), (0xcf, "fprem"),
    (0xd0, "fprn"), (0xd1, "fpdivby2"), (0xd2, "fpmulby2"), (0xd3, "fpsqrt"), (0xd4, "fprp"),
    (0xd5, "fprm"), (0xd6, "fprz"), (0xd7, "fpr32tor64"), (0xd8, "fpr64tor32"),
    (0xd9, "fpexpdec32"), (0xda, "fpexpinc32"), (0xdb, "fpabs"), (0xde, "fpchki32"),
    (0xdf, "fpchki64"), (0xf0, "devlb"), (0xf1, "devsb"), (0xf2, "devls"), (0xf3, "devss"),
    (0xf4, "devlw"), (0xf5, "devsw"), (0xf8, "xsword"), (0xf9, "lsx"), (0xfa, "cs"),
    (0xfb, "csu"), (0xfc, "togglemonitor"), (0xfd, "toggledisasm"), (0xfe, "terminate"),
    (0xff, "marker"), (0x17c, "lddevid")]

def tabIndirSize : Nat := 0x17d

/-- `tab_indir_negative`. -/
def tabIndirNegative : List (Nat × String) :=
  [(0x01, "fpstall"), (0x02, "fpldall"), (0x03, "stshadow"), (0x04, "ldshadow"), (0x05, "tret"),
    (0x06, "goprot"), (0x07, "selth"), (0x08, "syscall"), (0x09, "trapenb"), (0x0a, "trapdis"),
    (0x0b, "wait"), (0x0c, "signal"), (0x0d, "timeslice"), (0x0e, "insertqueue"),
    (0x0f, "swaptimer"), (0x10, "swapqueue"), (0x11, "iret"), (0x12, "stopch"), (0x13, "vout"),
    (0x14, "vin"), (0x17, "swapbfr"), (0x18, "sethdr"), (0x19, "setchmode"), (0x1a, "initvlcb"),
    (0x1b, "writehdr"), (0x1c, "readhdr"), (0x1d, "disg"), (0x1e, "enbg"), (0x1f, "grant"),
    (0x20, "stmove2dinit"), (0x21, "causeerror"), (0x22, "restart"), (0x23, "unmkrc"),
    (0x24, "mkrc"), (0x25, "irdsq"), (0x26, "erdsq"), (0x27, "stresptr"), (0x28, "ldresptr"),
    (0x2c, "devmove"), (0x2d, "icl"), (0x2e, "fdcl"), (0x2f, "ica"), (0x30, "fdca"),
    (0x40, "nop"), (0x41, "clockenb"), (0x42, "clockdis"), (0x43, "ldclock"), (0x44, "stclock"),
    (0x83, "reboot"), (0x84, "ldprodid")]

def tabIndirNegativeSize : Nat := 0x85

/-- `tab_fpu`. -/
def tabFpu : List (Nat × String) :=
  [(0x01, "fpusqrtfirst"), (0x02, "fpusqrtstep"), (0x03, "fpusqrtlast"), (0x04, "fpurp"),
    (0x05, "fpurm"), (0x06, "fpurz"), (0x07, "fpur32tor64"), (0x08, "fpur64tor32"),
    (0x09, "fpuexpdec32"), (0x0a, "fpuexpinc32"), (0x0b, "fpuabs"), (0x0d, "fpunoround"),
    (0x0e, "fpuchki32"), (0x0f, "fpuchki64"), (0x11, "fpudivby2"), (0x12, "fpumulby2"),
    (0x22, "fpurn"), (0x23, "fpuseterr"), (0x9c, "fpuclrerr")]

def tabFpuSize : Nat := 0x9d

end Ttools
